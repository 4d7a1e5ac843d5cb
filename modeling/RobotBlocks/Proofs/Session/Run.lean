import RobotBlocks.Proofs.ParameterEditor.Decomposition
import RobotBlocks.Proofs.Session.Changes

/-! Runs of a session. Whatever operations follow one another, every reference to a declaration of
the same graph shows what that declaration says now. -/
namespace RobotBlocks

/-- Applying a parameter editor is one change of the signature. -/
theorem ParameterEditor.compose_setSignature {g editor : Graph} {d : BlockId} {composed : Composed}
    (h : compose g d editor = .ok composed) :
    g.setSignature d composed.changes = .ok composed.graph := by
  simp only [compose, bind_eq_ok] at h
  obtain ⟨params, -, h⟩ := h
  split at h
  · simp only [bind_eq_ok, pure_eq_ok] at h
    obtain ⟨graph, set, editor, -, rfl⟩ := h
    exact mapError_eq_ok.mp set
  · exact absurd h throw_ne_ok

namespace ParameterEditor

/-- A parameter editor of which no item refuses its new name; it is applied as a whole or not at all. Only an item
that was put together by hand refuses it, when a block hangs in a socket that no item has. -/
structure Draft where
  graph : Graph
  renames : Renames graph

/-- An editor that was opened and then edited in any way is a draft. -/
def Draft.ofEdits {g editor : Graph} {d : BlockId} (opened : decompose g d = .ok editor) (edits : List Graph.Mutation) :
    Draft where
  graph := edits.foldl Graph.mutate editor
  renames :=
    have sound : (edits.foldl Graph.mutate editor).Sound :=
      List.foldlRecOn edits Graph.mutate (sound_decompose opened) fun _ sound edit _ => sound.mutate edit
    Bare.renames (bare_of_sound sound)

end ParameterEditor

/-! Operations. -/

namespace Session

variable {s : Session} {scope : Scope}

/-- What editing a field leaves: the session as it was, or another value. -/
theorem setField_cases {id : BlockId} {name value : String} {outcome : FieldEdit} {s' : Session}
    (h : s.setField id name value = .ok (outcome, s')) :
    ((∀ stored, outcome ≠ .applied stored) ∧ s' = s) ∨
    ∃ block stored old g, s.graph.block? id = some block ∧ s.fieldValue block name value = .ok stored ∧
      block.field? name ≠ some stored ∧ s.graph.setField id name stored = .ok (old, g) ∧
      outcome = .applied stored ∧ s' = s.withGraph g := by
  simp only [Session.setField, bind_eq_ok, Graph.get_eq_ok] at h
  obtain ⟨block, found, h⟩ := h
  split at h
  · obtain ⟨rfl, rfl⟩ := Prod.mk.inj (pure_eq_ok.mp h)
    exact .inl ⟨by simp, rfl⟩
  · next stored accepted =>
    split at h
    · obtain ⟨rfl, rfl⟩ := Prod.mk.inj (pure_eq_ok.mp h)
      exact .inl ⟨by simp, rfl⟩
    · next differs =>
      simp only [bind_eq_ok, pure_eq_ok, Prod.mk.injEq] at h
      obtain ⟨⟨old, g⟩, set, rfl, rfl⟩ := h
      exact .inr ⟨block, stored, old, g, found, accepted, differs, set, rfl, rfl⟩

theorem deleteBlock_cases {id : BlockId} {heal : Bool} {removed : List BlockId} {s' : Session}
    (h : s.deleteBlock id heal = .ok (removed, s')) :
    ∃ g, s.graph.deleteBlock id heal = .ok (removed, g) ∧ s' = s.withGraph g := by
  simp only [Session.deleteBlock, bind_eq_ok, pure_eq_ok, Prod.mk.injEq] at h
  obtain ⟨⟨doomed, g⟩, deleted, rfl, rfl⟩ := h
  exact ⟨g, deleted, rfl⟩

theorem applyEditor_composed {d : BlockId} {editor after : Graph} {changes : List ParamChange} {s' : Session}
    (h : s.applyEditor d editor = .ok (changes, after, s')) :
    ∃ composed, ParameterEditor.compose s.graph d editor = .ok composed ∧ composed.changes = changes ∧
      s' = s.withGraph composed.graph := by
  unfold Session.applyEditor at h
  split at h
  · next composed composes =>
    cases h
    exact ⟨composed, composes, rfl, rfl⟩
  · cases h

theorem applyEditor_cases {d : BlockId} {editor after : Graph} {changes : List ParamChange} {s' : Session}
    (h : s.applyEditor d editor = .ok (changes, after, s')) :
    ∃ g, s.graph.setSignature d changes = .ok g ∧ s' = s.withGraph g := by
  obtain ⟨composed, composes, rfl, rfl⟩ := applyEditor_composed h
  exact ⟨_, ParameterEditor.compose_setSignature composes, rfl⟩

/-- An application that is given up leaves the session as it was, or with the new parameters of the declaration and the
event that tells them. -/
theorem applyEditor_error {d : BlockId} {editor after : Graph} {error : GraphError} {left : Session}
    (h : s.applyEditor d editor = .error (error, after, left)) :
    left = s ∨ ∃ changes g, s.graph.setSignature d changes = .ok g ∧ left = { s with graph := g } := by
  unfold Session.applyEditor at h
  split at h
  · cases h
  · next aborted composes =>
    cases h
    rcases ParameterEditor.compose_error composes with ⟨same, -⟩ | ⟨container, -, set, -⟩
    · exact .inl (by rw [same])
    · exact .inr ⟨_, _, set, rfl⟩

theorem applyEditor_untouched {d : BlockId} {draft : ParameterEditor.Draft} {after : Graph} {error : GraphError}
    {left : Session} (h : s.applyEditor d draft.graph = .error (error, after, left)) :
    after = draft.graph ∧ left = s := by
  unfold Session.applyEditor at h
  split at h
  · cases h
  · next aborted composes =>
    cases h
    obtain ⟨graph, same⟩ := ParameterEditor.compose_untouched draft.renames composes
    exact ⟨same, by rw [graph]⟩

end Session

/-- What an edit tells: at most one event that may be answered by editing references, and behind it quiet ones. -/
def Graph.LoudOnce (g g' : Graph) : Prop :=
  ∃ first quiet, g'.pending.toList = g.pending.toList ++ (first ++ quiet) ∧ first.length ≤ 1 ∧
    ∀ event ∈ quiet, event.Quiet

theorem Graph.Calm.loudOnce {g g' : Graph} {except : BlockId → Prop} (calm : Calm except g g') : g.LoudOnce g' := by
  obtain ⟨told, appended, quiet⟩ := calm.told
  exact ⟨[], told, appended, Nat.zero_le 1, quiet⟩

theorem Graph.LoudOnce.refl (g : Graph) : g.LoudOnce g :=
  ⟨[], [], by simp, Nat.zero_le 1, List.forall_mem_nil _⟩

theorem Graph.LoudOnce.push {g g' : Graph} {event : Event} {rest : List Event}
    (appended : g'.pending.toList = g.pending.toList ++ event :: rest) (quiet : ∀ event ∈ rest, event.Quiet) :
    g.LoudOnce g' :=
  ⟨[event], rest, appended, Nat.le_refl 1, quiet⟩

/-- A fresh call tells of its creation first and then of nothing but itself. -/
theorem Session.pending_created {g h : Graph} {call : CallState} {name : String} {old : Option String}
    (named : (g.addBlock .methodCall (.call call)).2.setField g.freshId Field.name name = .ok (old, h)) :
    ∃ rest, h.pending.toList = g.pending.toList ++ .onBlock g.freshId .methodCall .created :: rest ∧
      ∀ event ∈ rest, ∃ payload, event = .onBlock g.freshId .methodCall payload ∧ payload.kind ≠ .create := by
  obtain ⟨own, found, -, same⟩ := Graph.setField_cases named
  have kind : own.kind = .methodCall := by
    cases (Graph.block?_created ..).symm.trans found
    exact Block.kind_create ..
  dsimp only at same
  split at same
  · refine ⟨[], ?_, List.forall_mem_nil _⟩
    rw [same]
    simp [Graph.addBlock, Graph.updateBlock, Graph.updateNode, Graph.place, Graph.emit, Graph.push]
  · refine ⟨[.onBlock g.freshId .methodCall (.fieldChanged Field.name old name)], ?_, fun event member => ?_⟩
    · rw [same, kind]
      simp [Graph.addBlock, Graph.updateBlock, Graph.updateNode, Graph.place, Graph.emit, Graph.push]
    · cases List.mem_singleton.mp member
      exact ⟨_, rfl, by simp [Payload.kind]⟩

namespace Session

variable {s : Session} {scope : Scope} {waiting : Nat}

/-- An edit has its events handled, and before them those that waited already. -/
theorem Ready.settled {t : Session} (ready : s.Ready waiting) (few : waiting < eventLimit) (opened : t.Open)
    (attuned : t.graph.Attuned) (loud : s.graph.LoudOnce t.graph) : t.settled.Ready waiting := by
  obtain ⟨first, quiet, appended, once, silent⟩ := loud
  have affords : t.Afford eventLimit := by
    refine ⟨opened, attuned, s.graph.pending.toList ++ first, quiet, ?_, ?_, silent⟩
    · rw [appended, List.append_assoc]
    · have early := ready.few
      rw [List.length_append]
      omega
  obtain ⟨opened, attuned, idle⟩ := affords.handleWithin none
  exact ⟨opened, attuned, Nat.le_trans idle (Nat.zero_le waiting)⟩

theorem Ready.withGraph {g : Graph} (ready : s.Ready waiting) (few : waiting < eventLimit) (attuned : g.Attuned)
    (loud : s.graph.LoudOnce g) : (s.withGraph g).Ready waiting :=
  Ready.settled (t := { s with graph := g }) ready few ⟨ready.opened.registry, ready.opened.phase⟩ attuned loud

theorem Ready.calmAll {g : Graph} (ready : s.Ready waiting) (few : waiting < eventLimit)
    (calm : Graph.CalmAll s.graph g) (evolves : s.graph.Evolves g) : (s.withGraph g).Ready waiting :=
  ready.withGraph few (ready.attuned.calmAll calm evolves) calm.loudOnce

theorem Ready.createBlock {kind : Kind} {extra : ExtraState} (ready : s.Ready waiting) (few : waiting < eventLimit)
    (room : s.graph.nextNumber < BlockId.last.number)
    (reference : kind.isReference = extra.call?.isSome)
    (declaration : kind.isDeclaration = extra.params?.isSome)
    (unbound : ∀ call, extra = .call call → call.declaration = none) :
    (s.createBlock kind extra).2.Ready waiting := by
  refine ready.withGraph few ?_ (.push (EventQueue.toList_push ..) (List.forall_mem_nil _))
  refine ready.attuned.place _ room ?_ (Block.create_derived ..) ⟨?_, ?_⟩ ?_
  · rw [Block.id_create, Graph.freshId_eq ready.attuned.toSteady]
  · rw [Block.kind_create, Block.extra_create, reference]
  · rw [Block.kind_create, Block.extra_create, declaration]
  · intro call d carried _ names
    rw [Block.extra_create] at carried
    rw [unbound call carried] at names
    cases names

theorem Ready.createCallTo {d id : BlockId} {s' : Session} (ready : s.Ready waiting) (few : waiting < eventLimit)
    (room : s.graph.nextNumber < BlockId.last.number) (h : s.createCallTo d = .ok (id, s')) :
    s'.Ready waiting := by
  simp only [Session.createCallTo, bind_eq_ok, pure_eq_ok, Prod.mk.injEq] at h
  obtain ⟨call, asked, ⟨old, g⟩, set, -, rfl⟩ := h
  obtain ⟨rest, appended, own⟩ := pending_created set
  refine ready.withGraph few (ready.attuned.placeCall room asked set) (.push appended fun event member => ?_)
  obtain ⟨payload, rfl, other⟩ := own event member
  cases payload <;> simp_all [Event.Quiet, Event.onBlock, Payload.kind, Kind.isDeclaration]

theorem Ready.setField {id : BlockId} {name value : String} {edit : FieldEdit} {s' : Session}
    (ready : s.Ready waiting) (few : waiting < eventLimit) (h : s.setField id name value = .ok (edit, s')) :
    s'.Ready waiting := by
  rcases setField_cases h with ⟨-, rfl⟩ | ⟨block, stored, old, g, found, -, differs, set, -, rfl⟩
  · exact ready
  · have loud : s.graph.LoudOnce g := .push (Graph.pending_setField found differs set) (List.forall_mem_nil _)
    by_cases renames : name = Field.name
    · subst renames
      cases declares : block.kind.isDeclaration with
      | false => exact ready.withGraph few (ready.attuned.setField found declares set) loud
      | true => exact ready.withGraph few (ready.attuned.renamed found declares differs set) loud
    · exact ready.calmAll few (.setLabel set renames) (.setField set)

theorem Ready.connectNext {previous id : BlockId} {s' : Session} (ready : s.Ready waiting)
    (few : waiting < eventLimit) (h : s.connectNext previous id = .ok s') : s'.Ready waiting := by
  obtain ⟨g, linked, rfl⟩ := map_eq_ok.mp h
  exact ready.calmAll few (.connectNext linked) (.of_run (.connectNext previous id) rfl linked)

theorem Ready.connectSocket {parent child : BlockId} {socket : String} {s' : Session} (ready : s.Ready waiting)
    (few : waiting < eventLimit) (h : s.connectSocket parent socket child = .ok s') : s'.Ready waiting := by
  obtain ⟨g, linked, rfl⟩ := map_eq_ok.mp h
  exact ready.calmAll few (.connectSocket linked) (Graph.Evolves.allows.connectSocket linked)

theorem Ready.unplug {id : BlockId} {heal : Bool} {s' : Session} (ready : s.Ready waiting)
    (few : waiting < eventLimit) (h : s.unplug id heal = .ok s') : s'.Ready waiting := by
  obtain ⟨g, freed, rfl⟩ := map_eq_ok.mp h
  exact ready.calmAll few (.unplug freed) (Graph.Evolves.allows.unplug freed)

theorem Ready.deleteBlock {id : BlockId} {heal : Bool} {removed : List BlockId} {s' : Session}
    (ready : s.Ready waiting) (few : waiting < eventLimit) (h : s.deleteBlock id heal = .ok (removed, s')) :
    s'.Ready waiting := by
  obtain ⟨g, deleted, rfl⟩ := deleteBlock_cases h
  exact ready.calmAll few (.deleteBlock deleted) (Graph.Evolves.allows.deleteBlock deleted)

theorem Ready.setScope (ready : s.Ready waiting) (few : waiting < eventLimit) (scope : Scope) :
    (s.setScope scope).2.Ready waiting := by
  have refers : ∀ id ∈ s.graph.references, s.graph.RefersAt id := fun _ => ready.attuned.sound.refersAt_reference
  have calm : Graph.Calm (fun _ => True) s.graph (s.graph.reconcileAll scope).2 :=
    (Graph.Calm.answers.reconcileEach refers {}).1
  exact Ready.settled (t := { s with scope, graph := (s.graph.reconcileAll scope).2 }) ready few
    ⟨ready.opened.registry, ready.opened.phase⟩ (ready.attuned.reconcileAll scope) calm.loudOnce

theorem Ready.applyEditor {d : BlockId} {editor after : Graph} {changes : List ParamChange} {s' : Session}
    (ready : s.Ready waiting) (few : waiting < eventLimit) (h : s.applyEditor d editor = .ok (changes, after, s')) :
    s'.Ready waiting := by
  obtain ⟨g, set, rfl⟩ := applyEditor_cases h
  obtain ⟨block, found, -⟩ := Graph.setSignature_cases set
  exact ready.withGraph few (ready.attuned.reshaped set)
    (.push (Graph.pending_setSignature found set) (List.forall_mem_nil _))

/-- An application that is given up may leave an event more that waits. -/
theorem Ready.givenUp {d : BlockId} {editor after : Graph} {error : GraphError} {left : Session}
    (ready : s.Ready waiting) (h : s.applyEditor d editor = .error (error, after, left)) :
    left.Ready (waiting + 1) := by
  rcases applyEditor_error h with rfl | ⟨changes, g, set, rfl⟩
  · exact ⟨ready.opened, ready.attuned, Nat.le_succ_of_le ready.few⟩
  · obtain ⟨block, found, -⟩ := Graph.setSignature_cases set
    refine ⟨⟨ready.opened.registry, ready.opened.phase⟩, ready.attuned.reshaped set, ?_⟩
    rw [Graph.pending_setSignature found set, List.length_append]
    exact Nat.succ_le_succ ready.few

end Session

/-! Runs. -/

/-- The operations on an open session. -/
inductive SessionEdit where
  | create (kind : Kind) (extra : ExtraState)
  | createCallTo (declaration : BlockId)
  | setField (id : BlockId) (name value : String)
  | connectNext (previous id : BlockId)
  | connectSocket (parent : BlockId) (socket : String) (child : BlockId)
  | unplug (id : BlockId) (heal : Bool)
  | delete (id : BlockId) (heal : Bool)
  /-- The parameter editor may have been edited in any way. -/
  | applyEditor (declaration : BlockId) (draft : ParameterEditor.Draft)
  | setScope (scope : Scope)

/-- Why an operation was refused, and the session that it leaves. -/
structure Refusal where
  error : GraphError
  session : Session

namespace SessionEdit

/-- The answer of an operation that changes nothing when it is refused. -/
def orKeep (s : Session) (answer : Except GraphError Session) : Except Refusal Session := answer.mapError (⟨·, s⟩)

/-- What the operation makes of a session, or why it is refused. -/
def run (s : Session) : SessionEdit → Except Refusal Session
  | create kind extra => .ok (s.createBlock kind extra).2
  | createCallTo declaration => orKeep s ((s.createCallTo declaration).map (·.2))
  | setField id name value => orKeep s ((s.setField id name value).map (·.2))
  | connectNext previous id => orKeep s (s.connectNext previous id)
  | connectSocket parent socket child => orKeep s (s.connectSocket parent socket child)
  | unplug id heal => orKeep s (s.unplug id heal)
  | delete id heal => orKeep s ((s.deleteBlock id heal).map (·.2))
  | applyEditor declaration draft =>
    ((s.applyEditor declaration draft.graph).map (·.2.2)).mapError fun (error, _, left) => ⟨error, left⟩
  | setScope scope => .ok (s.setScope scope).2

/-- A refused operation leaves the session as it was: an application that is given up half-way does not, but drafts are
applied as a whole. -/
theorem run_refused {s : Session} {edit : SessionEdit} {refusal : Refusal} (refused : edit.run s = .error refusal) :
    refusal.session = s := by
  have kept : ∀ {answer : Except GraphError Session}, orKeep s answer = .error refusal → refusal.session = s := by
    intro answer refused
    obtain ⟨error, -, rfl⟩ := mapError_eq_error.mp refused
    rfl
  cases edit with
  | create kind extra => cases refused
  | applyEditor declaration draft =>
    obtain ⟨⟨error, after, left⟩, applied, rfl⟩ := mapError_eq_error.mp refused
    exact (Session.applyEditor_untouched (map_eq_error.mp applied)).2
  | setScope scope => cases refused
  | _ => exact kept refused

def creates : SessionEdit → Bool
  | create .. | createCallTo _ => true
  | _ => false

/-- Blocks get the state that is their kind's default; declarations may have parameters. -/
inductive Plain : SessionEdit → Prop where
  | create (kind : Kind) : Plain (create kind (.default kind))
  | createEvent (params : List Parameter) : Plain (create .event (.event params))
  | createMethod (state : MethodState) : Plain (create .methodDef (.method state))
  | other {edit : SessionEdit} (kept : ∀ kind extra, edit ≠ create kind extra) : Plain edit

/-- What an operation does to a session that does not refuse it. -/
inductive Performs (s : Session) : SessionEdit → Session → Prop where
  | create (kind : Kind) (extra : ExtraState) :
      Performs s (create kind extra) (s.withGraph (s.graph.addBlock kind extra).2)
  | createCallTo {declaration : BlockId} {call : CallState} {old : Option String} {g : Graph}
      (asked : s.graph.callStateFor declaration = .ok call)
      (named : (s.graph.addBlock .methodCall (.call call)).2.setField s.graph.freshId Field.name call.name
        = .ok (old, g)) : Performs s (createCallTo declaration) (s.withGraph g)
  /-- The name is rejected or the field has the value already. -/
  | same (id : BlockId) (name value : String) : Performs s (setField id name value) s
  | setField {id : BlockId} {name value stored : String} {block : Block} {old : Option String} {g : Graph}
      (found : s.graph.block? id = some block) (accepted : s.fieldValue block name value = .ok stored)
      (differs : block.field? name ≠ some stored) (set : s.graph.setField id name stored = .ok (old, g)) :
      Performs s (setField id name value) (s.withGraph g)
  | connectNext {previous id : BlockId} {g : Graph} (linked : s.graph.connectNext previous id = .ok g) :
      Performs s (connectNext previous id) (s.withGraph g)
  | connectSocket {parent child : BlockId} {socket : String} {g : Graph}
      (linked : s.graph.connectSocket parent socket child = .ok g) :
      Performs s (connectSocket parent socket child) (s.withGraph g)
  | unplug {id : BlockId} {heal : Bool} {g : Graph} (freed : s.graph.unplug id heal = .ok g) :
      Performs s (unplug id heal) (s.withGraph g)
  | delete {id : BlockId} {heal : Bool} {doomed : List BlockId} {g : Graph}
      (deleted : s.graph.deleteBlock id heal = .ok (doomed, g)) : Performs s (delete id heal) (s.withGraph g)
  | applyEditor {declaration : BlockId} {draft : ParameterEditor.Draft} {g : Graph} {changes : List ParamChange}
      (set : s.graph.setSignature declaration changes = .ok g) :
      Performs s (applyEditor declaration draft) (s.withGraph g)
  | setScope (scope : Scope) :
      Performs s (setScope scope) { s with scope, graph := (s.graph.reconcileAll scope).2 }.settled

theorem performs {s s' : Session} {edit : SessionEdit} (ran : edit.run s = .ok s') : Performs s edit s' := by
  cases edit with
  | create kind extra =>
    cases ran
    exact .create kind extra
  | createCallTo declaration =>
    obtain ⟨⟨id, after⟩, called, rfl⟩ := map_eq_ok.mp (mapError_eq_ok.mp ran)
    simp only [Session.createCallTo, bind_eq_ok, pure_eq_ok, Prod.mk.injEq] at called
    obtain ⟨call, asked, ⟨old, g⟩, named, -, rfl⟩ := called
    exact .createCallTo asked named
  | setField id name value =>
    obtain ⟨⟨outcome, after⟩, edited, rfl⟩ := map_eq_ok.mp (mapError_eq_ok.mp ran)
    rcases Session.setField_cases edited with ⟨-, rfl⟩ | ⟨block, stored, old, g, found, accepted, differs, set, -, rfl⟩
    · exact .same id name value
    · exact .setField found accepted differs set
  | connectNext previous id =>
    obtain ⟨g, linked, rfl⟩ := map_eq_ok.mp (mapError_eq_ok.mp ran)
    exact .connectNext linked
  | connectSocket parent socket child =>
    obtain ⟨g, linked, rfl⟩ := map_eq_ok.mp (mapError_eq_ok.mp ran)
    exact .connectSocket linked
  | unplug id heal =>
    obtain ⟨g, freed, rfl⟩ := map_eq_ok.mp (mapError_eq_ok.mp ran)
    exact .unplug freed
  | delete id heal =>
    obtain ⟨⟨removed, after⟩, edited, rfl⟩ := map_eq_ok.mp (mapError_eq_ok.mp ran)
    obtain ⟨g, deleted, rfl⟩ := Session.deleteBlock_cases edited
    exact .delete deleted
  | applyEditor declaration draft =>
    obtain ⟨⟨changes, after, last⟩, edited, rfl⟩ := map_eq_ok.mp (mapError_eq_ok.mp ran)
    obtain ⟨g, set, rfl⟩ := Session.applyEditor_cases edited
    exact .applyEditor set
  | setScope scope =>
    cases ran
    exact .setScope scope

end SessionEdit

namespace Session

variable {s s' : Session} {scope : Scope} {n waiting abandoned : Nat}

/-- The session that an operation leaves, refused or not. -/
def edit (s : Session) (edit : SessionEdit) : Session :=
  match edit.run s with
  | .ok edited => edited
  | .error refusal => refusal.session

theorem edit_eq (s : Session) (edit : SessionEdit) :
    s.edit edit = match edit.run s with
      | .ok edited => edited
      | .error _ => s := by
  unfold Session.edit
  cases ran : edit.run s with
  | ok edited => rfl
  | error refusal => exact SessionEdit.run_refused ran

/-- The sessions that operations reach from a new one, with the number of blocks they created. Drafts are applied by
an edit; any other graph may be applied, too, and the applications of such graphs that are given up are counted. -/
inductive Reaches (scope : Scope) : Nat → Nat → Session → Prop where
  | new : Reaches scope 0 0 { scope }
  | edited {n abandoned : Nat} {s : Session} (reached : Reaches scope n abandoned s) (edit : SessionEdit)
      (plain : edit.Plain) :
      Reaches scope (n + if edit.creates && (edit.run s).toBool then 1 else 0) abandoned (s.edit edit)
  | applied {n abandoned : Nat} {s s' : Session} {d : BlockId} {editor after : Graph} {changes : List ParamChange}
      (reached : Reaches scope n abandoned s) (applies : s.applyEditor d editor = .ok (changes, after, s')) :
      Reaches scope n abandoned s'
  | givenUp {n abandoned : Nat} {s left : Session} {d : BlockId} {editor after : Graph} {error : GraphError}
      (reached : Reaches scope n abandoned s) (stops : s.applyEditor d editor = .error (error, after, left)) :
      Reaches scope n (abandoned + 1) left

/-- An operation starts from the graph of the session, or from that with one block more. -/
theorem run_evolves {edit : SessionEdit} (standard : s.registry = .standard) (ran : edit.run s = .ok s') :
    s'.registry = .standard ∧
      (if edit.creates then ∃ kind extra, (s.graph.addBlock kind extra).2.Evolves s'.graph
      else s.graph.Evolves s'.graph) := by
  have settles : ∀ {g : Graph}, (s.withGraph g).registry = .standard ∧
      g.Evolves (s.withGraph g).graph := fun {g} =>
    ⟨(settled_registry _).trans standard, settled_evolves (s := { s with graph := g }) standard⟩
  cases SessionEdit.performs ran with
  | create kind extra => exact ⟨settles.1, kind, extra, settles.2⟩
  | createCallTo asked named => exact ⟨settles.1, .methodCall, _, (Graph.Evolves.setField named).trans settles.2⟩
  | same => exact ⟨standard, .refl⟩
  | setField found accepted differs set => exact ⟨settles.1, (Graph.Evolves.setField set).trans settles.2⟩
  | connectNext linked => exact ⟨settles.1, (Graph.Evolves.of_run (.connectNext _ _) rfl linked).trans settles.2⟩
  | connectSocket linked => exact ⟨settles.1, (Graph.Evolves.allows.connectSocket linked).trans settles.2⟩
  | unplug freed => exact ⟨settles.1, (Graph.Evolves.allows.unplug freed).trans settles.2⟩
  | delete deleted => exact ⟨settles.1, (Graph.Evolves.allows.deleteBlock deleted).trans settles.2⟩
  | applyEditor set => exact ⟨settles.1, (Graph.Evolves.of_run (.setSignature _ _) rfl set).trans settles.2⟩
  | setScope scope =>
    refine ⟨(settled_registry _).trans standard, ?_⟩
    have first : s.graph.Evolves (s.graph.reconcileAll scope).2 := .reconcileEach ..
    exact first.trans (settled_evolves
      (s := { s with scope, graph := (s.graph.reconcileAll scope).2 }) standard)

theorem Ready.run {edit : SessionEdit} (ready : s.Ready waiting) (few : waiting < eventLimit) (plain : edit.Plain)
    (room : edit.creates = true → s.graph.nextNumber < BlockId.last.number)
    (ran : edit.run s = .ok s') : s'.Ready waiting := by
  cases edit with
  | create kind extra =>
    cases ran
    cases plain with
    | create =>
      refine ready.createBlock few (room rfl) ?_ ?_ fun call carried => ?_
      · cases kind <;> rfl
      · cases kind <;> rfl
      · cases kind <;> cases carried <;> rfl
    | createEvent params => exact ready.createBlock few (room rfl) rfl rfl fun _ carried => nomatch carried
    | createMethod state => exact ready.createBlock few (room rfl) rfl rfl fun _ carried => nomatch carried
    | other kept => exact absurd rfl (kept kind extra)
  | createCallTo declaration =>
    obtain ⟨⟨id, after⟩, called, rfl⟩ := map_eq_ok.mp (mapError_eq_ok.mp ran)
    exact ready.createCallTo few (room rfl) called
  | setField id name value =>
    obtain ⟨⟨outcome, after⟩, set, rfl⟩ := map_eq_ok.mp (mapError_eq_ok.mp ran)
    exact ready.setField few set
  | connectNext previous id => exact ready.connectNext few (mapError_eq_ok.mp ran)
  | connectSocket parent socket child => exact ready.connectSocket few (mapError_eq_ok.mp ran)
  | unplug id heal => exact ready.unplug few (mapError_eq_ok.mp ran)
  | delete id heal =>
    obtain ⟨⟨removed, after⟩, deleted, rfl⟩ := map_eq_ok.mp (mapError_eq_ok.mp ran)
    exact ready.deleteBlock few deleted
  | applyEditor declaration draft =>
    obtain ⟨⟨changes, after, last⟩, applied, rfl⟩ := map_eq_ok.mp (mapError_eq_ok.mp ran)
    exact ready.applyEditor few applied
  | setScope scope =>
    cases ran
    exact ready.setScope few scope

theorem Ready.counter {edit : SessionEdit} (ready : s.Ready waiting) (ran : edit.run s = .ok s') :
    s'.graph.nextNumber ≤ s.graph.nextNumber + if edit.creates then 1 else 0 := by
  obtain ⟨-, evolves⟩ := run_evolves ready.opened.registry ran
  split at evolves
  · next creates =>
    obtain ⟨kind, extra, evolves⟩ := evolves
    rw [evolves.nextNumber, if_pos creates]
    simp only [Graph.addBlock, Graph.place, Graph.emit, Graph.push, Block.id_create,
      Graph.freshId_eq ready.attuned.toSteady]
    split
    · omega
    · omega
  · next creates =>
    rw [evolves.nextNumber]
    exact Nat.le_add_right ..

theorem ready_new (scope : Scope) : Session.Ready { scope } 0 := by
  have missing : ∀ {id block}, Graph.empty.block? id = some block → False := by
    intro id block found
    simp [Graph.empty, Graph.block?, Graph.node?] at found
  refine ⟨⟨rfl, rfl⟩, ⟨⟨⟨.empty, ?_, ?_, ?_⟩, ?_, ?_⟩, ?_⟩, Nat.le_refl 0⟩
  · intro id block found
    exact (missing found).elim
  · intro id present
    obtain ⟨block, found⟩ := Graph.contains_iff_block.mp present
    exact (missing found).elim
  · intro id block call d found
    exact (missing found).elim
  · intro d told
    exact absurd rfl told
  · intro d declared found
    exact (missing found).elim
  · intro r block call d declared found
    exact (missing found).elim

theorem Reaches.ready (reached : Reaches scope n abandoned s) (room : n < BlockId.last.number)
    (few : abandoned < eventLimit) : s.Ready abandoned ∧ s.graph.nextNumber ≤ n := by
  induction reached with
  | new => exact ⟨ready_new scope, Nat.le_refl 0⟩
  | @edited n abandoned s reached edit plain ih =>
    obtain ⟨ready, early⟩ := ih (Nat.lt_of_le_of_lt (Nat.le_add_right ..) room) few
    rw [Session.edit_eq]
    cases ran : edit.run s with
    | error error => exact ⟨ready, Nat.le_trans early (Nat.le_add_right ..)⟩
    | ok edited =>
      have counter := ready.counter ran
      simp only [ran, Except.toBool, Bool.and_true] at room ⊢
      refine ⟨ready.run few plain (fun creates => ?_) ran, by omega⟩
      omega
  | @applied n abandoned s last d editor after changes reached applies ih =>
    obtain ⟨ready, early⟩ := ih room few
    refine ⟨ready.applyEditor few applies, ?_⟩
    obtain ⟨g, set, rfl⟩ := applyEditor_cases applies
    have evolves := (Graph.Evolves.of_run (.setSignature _ _) rfl set).trans
      (settled_evolves (s := { s with graph := g }) ready.opened.registry)
    exact evolves.nextNumber.trans_le early
  | givenUp reached stops ih =>
    obtain ⟨ready, early⟩ := ih room (Nat.lt_of_succ_lt few)
    refine ⟨ready.givenUp stops, ?_⟩
    rcases applyEditor_error stops with rfl | ⟨changes, g, set, rfl⟩
    · exact early
    · exact (Graph.Evolves.of_run (.setSignature _ _) rfl set).nextNumber.trans_le early

end Session
end RobotBlocks
