import RobotBlocks.Code.Generator
import RobotBlocks.Proofs.Session.Evolution

/-! What is seen of a scope. Sessions and the generator ask a scope for the declarations of references and
for nothing else; how it came about, and in which order it keeps its mechanisms, shows nowhere. -/
namespace RobotBlocks

/-- Two scopes in which every reference resolves alike. -/
def Scope.Alike (scope scope' : Scope) : Prop := scope.lookup = scope'.lookup

variable {scope scope' : Scope}

theorem Scope.Alike.of_members (robot : scope.robot = scope'.robot)
    (mechanisms : ∀ name, scope.mechanisms.get? name = scope'.mechanisms.get? name) : scope.Alike scope' := by
  funext own kind call
  have owners : scope.owner? own call.target = scope'.owner? own call.target := by
    cases call.target with
    | robot => exact robot
    | mechanism name module => exact mechanisms module
    | selfModule | fireEvent | component _ | moduleFunction _ => rfl
  rw [lookup, lookup, owners]

/-! Sessions. -/

theorem Graph.reconcile_alike (alike : scope.Alike scope') (g : Graph) (own : Declarations) (id : BlockId) :
    g.reconcile own scope id = g.reconcile own scope' id := by
  unfold Scope.Alike at alike
  simp only [reconcile, alike]

namespace Registry

theorem standard_alike (alike : scope.Alike scope') :
    ∀ registration ∈ standard.registrations, ∀ journal,
      registration.reaction journal scope = registration.reaction journal scope' := by
  have reconcile : Reaction.reconcile scope = Reaction.reconcile scope' := by
    funext id event g
    rw [Reaction.reconcile, Reaction.reconcile, g.reconcile_alike alike]
  intro registration known journal
  simp only [standard, List.mem_append, List.mem_map, List.mem_flatMap] at known
  rcases known with (⟨_, -, rfl⟩ | ⟨_, -, known⟩) | ⟨_, -, rfl⟩
  · rfl
  · rcases List.mem_cons.mp known with rfl | known
    · rfl
    · rw [List.mem_singleton.mp known]
      rfl
  · exact reconcile

theorem run_alike {registrations : List Registration}
    (alike : ∀ registration ∈ registrations, ∀ journal,
      registration.reaction journal scope = registration.reaction journal scope')
    (id : BlockId) (event : Event) (journal : List String) (g : Graph) :
    run scope id event registrations journal g = run scope' id event registrations journal g := by
  induction registrations generalizing journal g with
  | nil => rfl
  | cons registration rest ih =>
    simp only [run, alike registration (List.mem_cons_self ..),
      ih (fun other known => alike other (List.mem_cons_of_mem _ known))]

theorem dispatch_alike (alike : scope.Alike scope') (journal : List String) (event : Event) (g : Graph) :
    standard.dispatch journal scope event g = standard.dispatch journal scope' event g := by
  unfold dispatch
  cases event.block with
  | none => rfl
  | some id =>
    exact run_alike (fun registration known => standard_alike alike registration (List.mem_of_mem_filter known))
      id event journal g

end Registry

namespace Session

variable {s : Session}

/-- The session as it is, with another scope from here on. -/
def rescope (s : Session) (scope : Scope) : Session := { s with scope }

theorem handleLoading_rescope (alike : s.scope.Alike scope) (own : Option Declarations) (event : Event) :
    (s.rescope scope).handleLoading own event
      = ((s.handleLoading own event).1.rescope scope, (s.handleLoading own event).2) := by
  unfold handleLoading
  split
  · rfl
  · split
    · have same := s.graph.reconcile_alike alike (own.getD (.collect s.graph))
      simp only [rescope, ← same]
      split <;> rfl
    · rfl
  · rfl

theorem handle_rescope (standard : s.registry = .standard) (alike : s.scope.Alike scope)
    (own : Option Declarations) (event : Event) :
    (s.rescope scope).handle own event = ((s.handle own event).1.rescope scope, (s.handle own event).2) := by
  have phases : (s.rescope scope).phase = s.phase := rfl
  unfold handle
  rw [phases]
  cases s.phase with
  | whileLoading => exact handleLoading_rescope alike own event
  | afterLoading => simp only [rescope, standard, ← Registry.dispatch_alike alike]

/-- By induction on the budget: each event is handled alike, and the registry and the scope stay. -/
theorem handleWithin_rescope (standard : s.registry = .standard) (alike : s.scope.Alike scope)
    (own : Option Declarations) (budget : Nat) : (s.rescope scope).handleWithin own budget
      = ((s.handleWithin own budget).1.rescope scope, (s.handleWithin own budget).2) := by
  induction budget generalizing s own with
  | zero => rfl
  | succ budget ih =>
    cases popped : s.graph.pending.pop? with
    | none =>
      have still : ∀ t : Session, t.graph = s.graph → t.handleWithin own (budget + 1) = (t, budget + 1) := by
        intro t same
        rw [handleWithin, same, popped]
      rw [still s rfl, still (s.rescope scope) rfl]
    | some first =>
      obtain ⟨event, pending⟩ := first
      let t : Session := { s with graph := { s.graph with pending } }
      have step := handle_rescope (s := t) standard alike own event
      rw [handleWithin_pop (s := s.rescope scope) popped, handleWithin_pop popped]
      change ((t.rescope scope).handle own event).1.handleWithin ((t.rescope scope).handle own event).2 budget = _
      rw [step]
      exact ih ((handle_registry t own event).trans standard) ((handle_scope t own event).symm ▸ alike) _

/-- A stored graph is loaded alike. -/
theorem load_rescope (alike : scope.Alike scope') (forest : Forest) :
    Session.load forest scope' .standard = (·.rescope scope') <$> Session.load forest scope .standard := by
  unfold Session.load
  cases Graph.rebuild forest with
  | error error => rfl
  | ok g =>
    let s : Session := { graph := g.push .finishedLoading, registry := .standard, scope, phase := .whileLoading }
    have handled : (s.rescope scope').handleWithin none eventLimit = _ := handleWithin_rescope rfl alike none eventLimit
    change Except.ok (s.rescope scope').settled = Except.ok (s.settled.rescope scope')
    rw [settled, flush, handled]
    rfl

end Session

/-! Code. -/

namespace Code

variable (alike : scope.Alike scope') (g : Graph) (own : Declarations)
include alike

theorem resolveCall_alike : resolveCall own scope = resolveCall own scope' := by
  funext block call
  unfold Scope.Alike at alike
  simp only [resolveCall, alike]

theorem exprWithin_alike (depth : Nat) : exprWithin g own scope depth = exprWithin g own scope' depth := by
  induction depth with
  | zero => rfl
  | succ depth ih =>
    funext plugged
    cases plugged with
    | none => rfl
    | some id => simp only [exprWithin, resolveCall_alike alike, ih]

theorem statements_alike (ids : List BlockId) : statements g own scope ids = statements g own scope' ids := by
  induction ids with
  | nil => rfl
  | cons id rest ih => simp only [statements, exprOf, exprWithin_alike alike, ih]

theorem classOf_alike (outline : Outline) : classOf g scope outline = classOf g scope' outline := by
  have methods : methodOf g outline.declarations scope = methodOf g outline.declarations scope' := by
    funext id
    simp only [methodOf, bodyOf, statements_alike alike]
  have handlers : handlerMethod g outline.declarations scope = handlerMethod g outline.declarations scope' := by
    funext handler
    simp only [handlerMethod, bodyOf, statements_alike alike]
  simp only [classOf, methods, handlers]

omit alike in
/-- Only mechanisms and opmodes are named after their modules. -/
theorem collect?_named {type : ModuleType} {name name' : String} (named : type ≠ .robot → name = name') :
    Outline.collect? type name g = Outline.collect? type name' g := by
  cases type with
  | robot => rfl
  | mechanism | opMode | unknown => rw [named (by decide)]

omit own in
theorem generate_alike {type : ModuleType} {name name' : String} (named : type ≠ .robot → name = name')
    (options : Options) : generate type name g scope options = generate type name' g scope' options := by
  simp only [generate, collect?_named g named, classOf_alike alike]

end Code
end RobotBlocks
