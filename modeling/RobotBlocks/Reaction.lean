import RobotBlocks.Placement
import RobotBlocks.Reference

/-! Reactions to events. A registry lists, for each block kind, reactions with the event kinds that
they wait for; an event runs all that match, in the order of their registration. What a reaction
changes is queued as further events, and what it writes down is there for it to read at later ones. -/
namespace RobotBlocks

/-- What a reaction leaves behind: the graph, lines for the journal, and whether it failed. A failed
reaction keeps what it changed before. -/
structure Response where
  graph : Graph
  journal : List String := []
  failure : Option GraphError := none

/-- An edit that may be refused as a whole. -/
def Response.ofEdit (g : Graph) (edit : Except GraphError Graph) : Response :=
  match edit with
  | .ok edited => { graph := edited }
  | .error error => { graph := g, failure := some error }

/-- Several edits, as far as they came. -/
def Response.ofEdits (edits : Except (GraphError × Graph) Graph) : Response :=
  match edits with
  | .ok edited => { graph := edited }
  | .error (error, left) => { graph := left, failure := some error }

/-- How an event on a block of a graph is answered. -/
abbrev Reply := Scope → BlockId → Event → Graph → Response

/-- A reaction knows what was written into the journal before, newest line first. The journal is the memory of
reactions: one that counts or remembers does it there. -/
abbrev Reaction := List String → Reply

structure Registration where
  kind : Kind
  events : List EventKind
  reaction : Reaction

structure Registry where
  registrations : List Registration := []

namespace Reaction

/-! The standard reactions read nothing that was written before. -/

/-- Puts a moved block where its kind may stand. -/
def place : Reply := fun _ id _ g => .ofEdit g (Prod.snd <$> g.checkPlacement id)

/-- Carries a new name or new parameters of a declaration to its references. -/
def propagate : Reply := fun _ id event g =>
  match event.payload with
  | .fieldChanged field _ new =>
    { graph := if field = Field.name then (g.renameCallers id new).2 else g }
  | .signatureChanged changes => { graph := (g.mutateCallers id changes).2 }
  | _ => { graph := g }

/-- Warns the references to a deleted declaration. -/
def orphan : Reply := fun _ id _ g => { graph := (g.flagOrphans id).2 }

/-- Brings a created reference in line. -/
def reconcile : Reply := fun scope id _ g =>
  .ofEdits (Prod.snd <$> g.reconcile (.collect g) scope id)

end Reaction

namespace Registry

/-- Adds a reaction after all others. -/
def register (registry : Registry) (kind : Kind) (events : List EventKind) (reaction : Reaction) :
    Registry :=
  ⟨registry.registrations ++ [⟨kind, events, reaction⟩]⟩

/-- The reactions that keep declarations, references and sections consistent. -/
def standard : Registry where
  registrations :=
    PlacementRule.kinds.map (fun kind => ⟨kind, [.move], fun _ => Reaction.place⟩) ++
    [Kind.event, Kind.methodDef].flatMap (fun kind =>
      [⟨kind, [.change], fun _ => Reaction.propagate⟩, ⟨kind, [.delete], fun _ => Reaction.orphan⟩]) ++
    [Kind.methodCall, Kind.eventHandler].map fun kind => ⟨kind, [.create], fun _ => Reaction.reconcile⟩

/-- The number of registrations for a kind. -/
def count (registry : Registry) (kind : Kind) : Nat :=
  (registry.registrations.filter fun registration => registration.kind = kind).length

/-- The registrations that an event runs. -/
def matching (registry : Registry) (event : Event) : List Registration :=
  registry.registrations.filter fun registration =>
    event.blockKind = some registration.kind && registration.events.contains event.kind

/-- Runs registrations one after the other, each with the journal that the ones before it left; a
failing one does not stop the rest. -/
def run (scope : Scope) (id : BlockId) (event : Event) :
    List Registration → List String → Graph → Graph × List String
  | [], journal, g => (g, journal)
  | registration :: rest, journal, g =>
    let response := registration.reaction journal scope id event g
    run scope id event rest (response.journal.reverse ++ journal) response.graph

/-- Runs what an event asks for; an event without a block asks for nothing. -/
def dispatch (registry : Registry) (journal : List String) (scope : Scope) (event : Event) (g : Graph) :
    Graph × List String :=
  match event.block with
  | none => (g, journal)
  | some id => run scope id event (registry.matching event) journal g

end Registry
end RobotBlocks
