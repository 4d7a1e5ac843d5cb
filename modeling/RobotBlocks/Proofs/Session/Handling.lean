import RobotBlocks.Proofs.Session.Reconcile

/-! Handling events. What may be answered by editing references waits in front; the answers only tell what is
quiet, and quiet events are answered by moves and warnings. -/
namespace RobotBlocks

theorem Event.eq_created {event : Event} {id : BlockId} {kind : Kind} (created : event.kind = .create)
    (block : event.block = some id) (of : event.blockKind = some kind) : event = .onBlock id kind .created := by
  obtain ⟨_, _, payload⟩ := event
  cases block
  cases of
  cases payload with
  | created => rfl
  | _ => cases created

namespace Registry

variable {g : Graph} {journal : List String} {scope : Scope} {event : Event}

/-- The standard reactions to an event on a block. -/
theorem dispatch_standard (g : Graph) (journal : List String) (scope : Scope) (id : BlockId) (kind : Kind)
    (payload : Payload) :
    (standard.dispatch journal scope (.onBlock id kind payload) g).1
      = match payload.kind, kind with
        | .move, .event | .move, .component | .move, .mechanism =>
          (Reaction.place scope id (.onBlock id kind payload) g).graph
        | .change, .event | .change, .methodDef =>
          (Reaction.propagate scope id (.onBlock id kind payload) g).graph
        | .delete, .event | .delete, .methodDef =>
          (Reaction.orphan scope id (.onBlock id kind payload) g).graph
        | .create, .methodCall | .create, .eventHandler =>
          (Reaction.reconcile scope id (.onBlock id kind payload) g).graph
        | _, _ => g := by
  cases payload <;> cases kind <;> rfl

theorem dispatch_renamed {d : BlockId} {kind : Kind} {old : Option String} {name : String}
    (declares : kind.isDeclaration = true) :
    (standard.dispatch journal scope (.onBlock d kind (.fieldChanged Field.name old name)) g).1 =
      (g.renameCallers d name).2 := by
  rw [dispatch_standard]
  cases kind <;> first | rfl | cases declares

theorem dispatch_reshaped {d : BlockId} {kind : Kind} {changes : List ParamChange}
    (declares : kind.isDeclaration = true) :
    (standard.dispatch journal scope (.onBlock d kind (.signatureChanged changes)) g).1 =
      (g.mutateCallers d changes).2 := by
  rw [dispatch_standard]
  cases kind <;> first | rfl | cases declares

/-- What holds of a graph and of the answers of all standard reactions holds of every answer. Changes are carried
from declarations only, and only created references are brought in line. -/
theorem dispatch_cases {P : Graph → Prop} (event : Event) (still : P g)
    (place : ∀ id event, P (Reaction.place scope id event g).graph)
    (propagate : ∀ id kind payload, event = .onBlock id kind payload → kind.isDeclaration = true →
      P (Reaction.propagate scope id event g).graph)
    (orphan : ∀ id event, P (Reaction.orphan scope id event g).graph)
    (reconcile : ∀ id kind, event = .onBlock id kind .created → kind.isReference = true →
      P (Reaction.reconcile scope id event g).graph) :
    P (standard.dispatch journal scope event g).1 := by
  obtain ⟨block, kind, payload⟩ := event
  cases block with
  | none => exact still
  | some id =>
    cases kind with
    | none => cases payload <;> exact still
    | some kind =>
      have answer := dispatch_standard g journal scope id kind payload
      simp only [Event.onBlock] at answer
      rw [answer]
      have created : payload.kind = .create → payload = .created := by
        intro creation
        cases payload with
        | created => rfl
        | _ => cases creation
      split
      · exact place ..
      · exact place ..
      · exact place ..
      · exact propagate id _ payload rfl rfl
      · exact propagate id _ payload rfl rfl
      · exact orphan ..
      · exact orphan ..
      · next creation => exact reconcile id .methodCall (by rw [created creation]; rfl) rfl
      · next creation => exact reconcile id .eventHandler (by rw [created creation]; rfl) rfl
      · exact still

/-! Relations that all reactions obey. -/

section Answers

variable {P : Graph → BlockId → Prop} {R : Graph → Graph → Prop} {id : BlockId}

theorem place_allowed (allows : Graph.Allows R) (g : Graph) (scope : Scope) (id : BlockId) (event : Event) :
    R g (Reaction.place scope id event g).graph := by
  unfold Reaction.place
  cases checked : g.checkPlacement id with
  | error error => exact allows.refl g
  | ok result => exact allows.checkPlacement checked

theorem propagate_answers (answers : Graph.Answers P R) (may : ∀ caller ∈ g.callersOf id, P g caller) (scope : Scope)
    (event : Event) : R g (Reaction.propagate scope id event g).graph := by
  unfold Reaction.propagate
  split
  · split
    · exact answers.renameCallers _ may
    · exact answers.refl g
  · exact answers.mutateCallers _ may
  · exact answers.refl g

theorem reconcile_answers (answers : Graph.Answers P R) (may : P g id) (scope : Scope) (event : Event) :
    R g (Reaction.reconcile scope id event g).graph :=
  (answers.reconcile (.collect g) scope may).map.response

/-- Reactions edit the callers of a declaration and references that were created. -/
theorem dispatch_answers (allows : Graph.Allows R) (answers : Graph.Answers P R)
    (callers : ∀ id, ∀ caller ∈ g.callersOf id, P g caller)
    (created : ∀ id kind, event = .onBlock id kind .created → kind.isReference = true → P g id)
    (scope : Scope) : R g (standard.dispatch journal scope event g).1 :=
  dispatch_cases event (answers.refl g) (fun id event => place_allowed allows g scope id event)
    (fun id _ _ _ _ => propagate_answers answers (callers id) scope event)
    (fun id _ => answers.flagOrphans (callers id))
    fun id kind same reference => reconcile_answers answers (created id kind same reference) scope event

end Answers

theorem place_calm (g : Graph) (scope : Scope) (id : BlockId) (event : Event) :
    Graph.CalmAll g (Reaction.place scope id event g).graph :=
  place_allowed Graph.Calm.allows g scope id event

theorem orphan_calm (g : Graph) (scope : Scope) (id : BlockId) (event : Event) :
    Graph.CalmAll g (Reaction.orphan scope id event g).graph :=
  Graph.Calm.allows.flagOrphans g id

/-- Changes are carried only by events that tell of them. -/
theorem propagate_silent (scope : Scope) (g : Graph) {id : BlockId} {kind : Kind} {payload : Payload}
    (silent : (Event.onBlock id kind payload).news id = {}) (declares : kind.isDeclaration = true) :
    (Reaction.propagate scope id (.onBlock id kind payload) g).graph = g := by
  cases payload with
  | fieldChanged field old name =>
    refine if_neg fun renamed => ?_
    subst renamed
    rw [Event.news_renamed declares] at silent
    cases silent
  | signatureChanged changes =>
    rw [Event.news_reshaped declares] at silent
    cases silent
  | _ => rfl

/-- A quiet event is answered by putting a block in its place or by warning references, if at all. -/
theorem dispatch_quiet_cases {P : Graph → Prop} (quiet : event.Quiet) (still : P g)
    (place : ∀ id event, P (Reaction.place scope id event g).graph)
    (orphan : ∀ id event, P (Reaction.orphan scope id event g).graph) :
    P (standard.dispatch journal scope event g).1 := by
  refine dispatch_cases event still place (fun id kind payload same declares => ?_) orphan
    fun id kind same reference => ?_
  · subst same
    rw [propagate_silent scope g (quiet.news_eq id) declares]
    exact still
  · subst same
    cases reference.symm.trans (quiet kind rfl)

theorem dispatch_quiet (journal : List String) (scope : Scope) (quiet : event.Quiet) :
    Graph.CalmAll g (standard.dispatch journal scope event g).1 :=
  dispatch_quiet_cases quiet (.refl g) (place_calm g scope) (orphan_calm g scope)

end Registry

namespace Graph

variable {g : Graph} {event : Event} {pending : EventQueue}

/-- Bringing a reference in line tells nothing that would edit another one. -/
theorem Steady.calm_react (steady : g.Steady) (scope : Scope) (id : BlockId) (event : Event) :
    Calm (fun _ => True) g (Reaction.reconcile scope id event g).graph := by
  unfold Reaction.reconcile
  cases ran : g.reconcile (.collect g) scope id with
  | error stop =>
    obtain ⟨error, left⟩ := stop
    cases steady.sound.reconcile_error ran
    exact .refl g
  | ok result =>
    obtain ⟨outcome, turned⟩ := result
    rcases reconcile_cases ran with ⟨-, rfl⟩ | ⟨-, name, warns⟩ | ⟨call, signature, named, shaped, got, -⟩
    · exact .refl turned
    · exact (Calm.setWarning warns).weaken fun _ none => none.elim
    · obtain ⟨block, found, carried⟩ := getCall_eq_ok.mp got
      have refers := refersAt_of_block? found (steady.isReference found carried)
      exact ((Calm.reconcile (.collect g) scope refers).ok ran).weaken fun _ _ => trivial

/-- Whatever event is answered, nothing is told that would edit a reference. -/
theorem Steady.calm_dispatch (steady : g.Steady) (journal : List String) (scope : Scope) (event : Event) :
    Calm (fun _ => True) g (Registry.standard.dispatch journal scope event g).1 := by
  have all : ∀ {g'}, CalmAll g g' → Calm (fun _ => True) g g' := fun calm => calm.weaken fun _ none => none.elim
  exact Registry.dispatch_cases event (.refl g) (fun id event => all (Registry.place_calm g scope id event))
    (fun id _ _ _ _ => (Registry.propagate_answers Calm.answers (fun _ => steady.sound.tree.refersAt_caller)
      scope event).1)
    (fun id event => all (Registry.orphan_calm g scope id event)) fun id _ _ _ => steady.calm_react scope id event

/-- The answer to the oldest event lets the references hear what it tells. -/
theorem Attuned.answered (attuned : g.Attuned) (waiting : g.pending.toList = event :: pending.toList)
    (journal : List String) (scope : Scope) :
    (Registry.standard.dispatch journal scope event { g with pending }).1.Attuned := by
  by_cases silent : ∀ d, event.news d = {}
  · have popped := attuned.pop waiting silent
    refine Registry.dispatch_cases event popped (fun id other => ?_) (fun id kind payload same declares => ?_)
      (fun id other => ?_) fun id _ _ _ => popped.react scope event
    · exact popped.calmAll (Registry.place_calm _ scope id other) (Reaction.place_edits scope id other _)
    · subst same
      rw [Registry.propagate_silent scope _ (silent id) declares]
      exact popped
    · exact popped.calmAll (Registry.orphan_calm _ scope id other) (Reaction.orphan_edits scope id other _)
  · obtain ⟨d, told⟩ := not_forall.mp silent
    have distinct := callersOf_nodup (attuned.sound.queue pending).tree d
    obtain ⟨kind, declares, ⟨old, name, rfl⟩ | ⟨changes, rfl⟩⟩ := Event.of_news told
    · rw [Registry.dispatch_renamed declares]
      have due := attuned.pending waiting fun other apart => Event.news_of_other (.inl apart)
      rw [Event.news_renamed declares] at due
      exact (renews_name name).updateEach distinct due
    · rw [Registry.dispatch_reshaped declares]
      have due := attuned.pending waiting fun other apart => Event.news_of_other (.inl apart)
      rw [Event.news_reshaped declares] at due
      exact (renews_params changes).updateEach distinct due

end Graph

namespace Session

variable {s : Session} {scope : Scope}

/-- In both phases the answer to an event edits the callers of a declaration and references that were created. -/
theorem handle_answers {P : Graph → BlockId → Prop} {R : Graph → Graph → Prop} {event : Event}
    (allows : Graph.Allows R) (answers : Graph.Answers P R) (standard : s.registry = .standard)
    (callers : ∀ id, ∀ caller ∈ s.graph.callersOf id, P s.graph caller)
    (created : ∀ id kind, event = .onBlock id kind .created → kind.isReference = true → P s.graph id)
    (own : Option Declarations) : R s.graph (s.handle own event).1.graph := by
  unfold handle
  split
  · unfold handleLoading
    split
    · exact answers.refl _
    · next id kind creation here is =>
      split
      · next reference =>
        have may := created id kind (Event.eq_created creation here is) reference
        dsimp only
        split
        · next ran => exact (answers.reconcile _ s.scope may).ok ran
        · next ran => exact (answers.reconcile _ s.scope may).error ran
      · exact answers.refl _
    · exact answers.refl _
  · rw [standard]
    exact Registry.dispatch_answers allows answers callers created s.scope

/-- Events are handled by the standard reactions. -/
structure Open (s : Session) : Prop where
  registry : s.registry = .standard
  phase : s.phase = .afterLoading

theorem handle_open (s : Session) (opened : s.Open) (own : Option Declarations) (event : Event) :
    (s.handle own event).1.Open ∧
      (s.handle own event).1.graph = (Registry.standard.dispatch s.journal s.scope event s.graph).1 := by
  obtain ⟨registry, phase⟩ := opened
  unfold handle
  rw [phase]
  exact ⟨⟨registry, rfl⟩, by rw [registry]⟩

/-- The first event that waits is answered first, and what it leaves is handled after it. -/
theorem Open.settled_cons {event : Event} {rest : List Event} (opened : s.Open)
    (waiting : s.graph.pending.toList = event :: rest) :
    ∃ (pending : EventQueue) (t : Session) (own : Option Declarations), pending.toList = rest ∧ t.Open ∧
      t.scope = s.scope ∧ t.graph = (Registry.standard.dispatch s.journal s.scope event { s.graph with pending }).1 ∧
      s.settled = (t.handleWithin own (eventLimit - 1)).1 := by
  obtain ⟨pending, popped, same⟩ := EventQueue.pop?_cons waiting
  obtain ⟨still, answer⟩ := handle_open { s with graph := { s.graph with pending } }
    ⟨opened.registry, opened.phase⟩ none event
  exact ⟨pending, _, _, same, still, handle_scope .., answer, settled_pop popped⟩

theorem settled_idle (idle : s.graph.pending.toList = []) : s.settled = s := by
  have popped : s.graph.pending.pop? = none := by rw [EventQueue.eq_empty idle]; rfl
  change (s.handleWithin none (eventLimit - 1 + 1)).1 = s
  rw [handleWithin, popped]

/-- Between operations references agree once they have heard of the events that wait, which are no more than that
many. -/
structure Ready (s : Session) (waiting : Nat) : Prop where
  opened : s.Open
  attuned : s.graph.Attuned
  few : s.graph.pending.toList.length ≤ waiting

/-- Within an operation the events that may edit references wait in front, and a budget is enough for them. -/
structure Afford (s : Session) (budget : Nat) : Prop where
  opened : s.Open
  attuned : s.graph.Attuned
  front : ∃ loud quiet, s.graph.pending.toList = loud ++ quiet ∧ loud.length ≤ budget ∧
    ∀ event ∈ quiet, event.Quiet

/-- All references agree when the events have been handled, though quiet ones may have been dropped. -/
theorem Afford.handleWithin {budget : Nat} (affords : s.Afford budget) (own : Option Declarations) :
    (s.handleWithin own budget).1.Ready 0 := by
  induction budget generalizing s own with
  | zero =>
    obtain ⟨opened, attuned, loud, quiet, waiting, few, silent⟩ := affords
    cases List.length_eq_zero_iff.mp (Nat.le_zero.mp few)
    rw [List.nil_append] at waiting
    rw [← waiting] at silent
    exact ⟨⟨opened.registry, opened.phase⟩, attuned.drop silent, Nat.le_refl 0⟩
  | succ budget ih =>
    obtain ⟨opened, attuned, loud, quiet, waiting, few, silent⟩ := affords
    unfold Session.handleWithin
    split
    · next none => exact ⟨opened, attuned, by simp [EventQueue.pop?_none none]⟩
    · next event pending popped =>
      have first := EventQueue.pop?_some popped
      obtain ⟨still, answer⟩ := handle_open { s with graph := { s.graph with pending } }
        ⟨opened.registry, opened.phase⟩ own event
      have answered := attuned.answered first s.journal s.scope
      obtain ⟨told, appended, more⟩ := (attuned.toSteady.queue pending).calm_dispatch s.journal s.scope event |>.told
      rw [← answer] at answered appended
      have same := first.symm.trans waiting
      refine ih ⟨still, answered, ?_⟩ _
      -- What the answer tells is quiet and waits behind all else.
      cases loud with
      | nil =>
        rw [List.nil_append] at same
        rw [← same] at silent
        exact ⟨[], _, appended, Nat.zero_le budget,
          List.forall_mem_append.mpr ⟨fun other member => silent other (List.mem_cons_of_mem _ member), more⟩⟩
      | cons loudest loud =>
        have rest : pending.toList = loud ++ quiet := (List.cons.inj same).2
        refine ⟨loud, quiet ++ told, ?_, Nat.le_of_succ_le_succ few, List.forall_mem_append.mpr ⟨silent, more⟩⟩
        rw [appended, ← List.append_assoc, ← rest]

end Session
end RobotBlocks
