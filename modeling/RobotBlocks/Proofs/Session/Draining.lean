import Mathlib.Data.Finset.Card
import Mathlib.Data.Prod.Lex
import RobotBlocks.Proofs.Graph.Sections
import RobotBlocks.Proofs.Session.Names

/-! Draining the queue. Reactions edit, and what they edit is told to the same reactions, but they never
keep feeding one another. No reaction creates a block. What edits a reference tells of the reference and of
its arguments, and no reaction answers that by editing references again. And what is left to do then takes a
block out of its place, which it cannot do twice, for nothing hangs it back. -/
namespace RobotBlocks

/-- Whether a reaction may answer the event by editing references. -/
def Event.isLoud (event : Event) : Bool :=
  match event.payload, event.blockKind with
  | .created, some kind => kind.isReference
  | .fieldChanged field _ _, some kind => kind.isDeclaration && field = Field.name
  | .signatureChanged _, some kind => kind.isDeclaration
  | _, _ => false

theorem Event.quiet_iff {event : Event} : event.Quiet ↔ event.isLoud = false := by
  obtain ⟨_, kind, payload⟩ := event
  cases payload <;> cases kind <;> simp [Event.Quiet, Event.isLoud]

namespace Graph

variable {g g' : Graph} {id : BlockId} {scope : Scope} {event : Event}

/-! Blocks that hang somewhere. -/

/-- The blocks that have a parent. -/
def hanging (g : Graph) : Finset BlockId := g.ids.toFinset.filter fun id => (g.parentLink? id).isSome

theorem mem_hanging : id ∈ g.hanging ↔ (g.parentLink? id).isSome = true := by
  simp only [hanging, Finset.mem_filter, List.mem_toFinset, and_iff_right_iff_imp]
  intro hangs
  obtain ⟨link, linked⟩ := Option.isSome_iff_exists.mp hangs
  exact contains_iff_mem.mp (contains_of_parentLink linked)

theorem hanging_congr (links : ∀ id, g'.parentLink? id = g.parentLink? id) : g'.hanging = g.hanging := by
  ext id
  rw [mem_hanging, mem_hanging, links]

/-- What is taken out of a stack hangs no more, and nothing else hangs that did not before. -/
theorem Tree.hanging_heal (tree : g.Tree) {place : BlockId × Link} (linked : g.parentLink? id = some place) :
    (g.detach id true).hanging ⊂ g.hanging := by
  have links := tree.parentLink?_heal linked
  refine (Finset.ssubset_iff_of_subset fun other hangs => ?_).mpr ⟨id, ?_, ?_⟩
  · rw [mem_hanging, links] at hangs
    rw [mem_hanging]
    split at hangs
    · cases hangs
    · split at hangs
      · next follows => rw [follows, Option.isSome_some]
      · exact hangs
  · rw [mem_hanging, linked, Option.isSome_some]
  · rw [mem_hanging, links, if_pos rfl]
    exact Bool.false_ne_true

/-! What is still to be done. -/

/-- How many creations wait. -/
def creations (g : Graph) : Nat := g.pending.toList.countP fun event => event.kind = .create

/-- How many events wait that a reaction may answer by editing references. -/
def loudness (g : Graph) : Nat := g.pending.toList.countP Event.isLoud

/-- Each block that hangs may be taken out, which is told by one event more. -/
def unrest (g : Graph) : Nat := 2 * g.hanging.card + g.pending.toList.length

theorem Reports.creations_eq {about : BlockId → Prop} (reports : Reports about g g') :
    g'.creations = g.creations := by
  obtain ⟨told, appended, tells⟩ := reports.events
  have none : told.countP (fun event => event.kind = .create) = 0 := by
    refine List.countP_eq_zero.mpr fun event member => ?_
    obtain ⟨_, _, payload, -, -, ⟨other, -⟩, rfl⟩ := tells event member
    exact fun created => other (of_decide_eq_true created)
  rw [creations, appended, List.countP_append, none, Nat.add_zero, creations]

theorem Calm.loudness_eq {except : BlockId → Prop} (calm : Calm except g g') : g'.loudness = g.loudness := by
  obtain ⟨told, appended, quiet⟩ := calm.told
  have none : told.countP Event.isLoud = 0 := by
    refine List.countP_eq_zero.mpr fun event member => ?_
    rw [Event.quiet_iff.mp (quiet event member)]
    exact Bool.false_ne_true
  rw [loudness, appended, List.countP_append, none, Nat.add_zero, loudness]

theorem unrest_setWarning {warning : Option String} (h : g.setWarning id warning = .ok g') :
    g'.unrest = g.unrest := by
  have hangs : g'.hanging = g.hanging := hanging_congr (parentLink?_setWarning h)
  obtain ⟨-, rfl⟩ := setWarning_eq_ok.mp h
  rw [unrest, hangs]
  rfl

theorem Sound.unrest_heal (sound : g.Sound) (h : g.unplug id true = .ok g') : g'.unrest ≤ g.unrest := by
  rcases unplug_cases h with ⟨-, rfl⟩ | ⟨kind, parent, up, rfl⟩
  · exact Nat.le_refl _
  · obtain ⟨hook, linked⟩ := parent?_eq_some.mp up
    have fewer : (g.detach id true).hanging.card < g.hanging.card :=
      Finset.card_lt_card (sound.tree.hanging_heal linked)
    have told : ((g.detach id true).emit id kind (.moved (some parent) none)).pending.toList.length
        = g.pending.toList.length + 1 := by
      rw [Graph.emit, Graph.push, EventQueue.toList_push, pending_detach, List.length_append, List.length_singleton]
    have hangs : ((g.detach id true).emit id kind (.moved (some parent) none)).hanging
        = (g.detach id true).hanging := hanging_congr fun _ => rfl
    rw [unrest, told, hangs, unrest]
    omega

theorem Sound.unrest_checkPlacement {placement : Placement} (sound : g.Sound)
    (h : g.checkPlacement id = .ok (placement, g')) : g'.unrest ≤ g.unrest := by
  simp only [Graph.checkPlacement, bind_eq_ok] at h
  obtain ⟨block, -, h⟩ := h
  split at h
  · simp only [pure_eq_ok, Prod.mk.injEq] at h
    exact h.2 ▸ Nat.le_refl _
  · split at h
    · simp only [bind_eq_ok, pure_eq_ok, Prod.mk.injEq] at h
      obtain ⟨cleared, clears, -, rfl⟩ := h
      exact (unrest_setWarning clears).le
    · simp only [bind_eq_ok, pure_eq_ok, Prod.mk.injEq] at h
      obtain ⟨loose, freed, warned, warns, -, rfl⟩ := h
      exact (unrest_setWarning warns).le.trans (sound.unrest_heal freed)

theorem unrest_flagOrphans (g : Graph) (declaration : BlockId) : (g.flagOrphans declaration).2.unrest = g.unrest :=
  updateEach_obeys (P := fun _ _ => True) (R := fun g g' => g'.unrest = g.unrest) (fun _ => rfl)
    (fun first second => second.trans first) (fun _ _ => trivial)
    (fun _ => .whole (fun _ warned => unrest_setWarning warned) rfl) fun _ _ => trivial

/-! Reactions. -/

/-- No reaction creates a block. -/
theorem reports_dispatch (g : Graph) (journal : List String) (scope : Scope) (event : Event) :
    Reports (fun _ => True) g (Registry.standard.dispatch journal scope event g).1 :=
  Registry.dispatch_answers Reports.allows Reports.answers (fun _ _ _ => trivial) (fun _ _ _ _ => trivial) scope

/-- Nothing loud is told when something else than a creation is answered. -/
theorem Sound.calm_dispatch (sound : g.Sound) (journal : List String) (scope : Scope) (other : event.kind ≠ .create) :
    Calm (fun _ => True) g (Registry.standard.dispatch journal scope event g).1 := by
  refine (Registry.dispatch_answers Calm.allowed Calm.answers (fun _ _ => sound.tree.refersAt_caller) ?_ scope).1
  rintro id kind rfl -
  exact absurd rfl other

/-- A quiet event is answered by taking a block out of its place, if at all. -/
theorem Sound.unrest_dispatch (sound : g.Sound) (journal : List String) (scope : Scope) (quiet : event.Quiet) :
    (Registry.standard.dispatch journal scope event g).1.unrest ≤ g.unrest := by
  have place : ∀ id event, (Reaction.place scope id event g).graph.unrest ≤ g.unrest := by
    intro id event
    unfold Reaction.place
    cases checked : g.checkPlacement id with
    | error error => exact Nat.le_refl _
    | ok result => exact sound.unrest_checkPlacement checked
  have orphan : ∀ id event, (Reaction.orphan scope id event g).graph.unrest ≤ g.unrest := fun id event =>
    (unrest_flagOrphans g _).le
  exact Registry.dispatch_quiet_cases (P := fun h => h.unrest ≤ g.unrest) quiet (Nat.le_refl _) place orphan

/-- What is still to be done: creations first, then loud events, then all others. -/
def agenda (g : Graph) : Nat ×ₗ Nat ×ₗ Nat := toLex (g.creations, toLex (g.loudness, g.unrest))

/-- Whatever event is answered, less is to be done afterwards. -/
theorem Sound.agenda_dispatch {pending : EventQueue} (sound : g.Sound) (journal : List String) (scope : Scope)
    (popped : g.pending.pop? = some (event, pending)) :
    (Registry.standard.dispatch journal scope event { g with pending }).1.agenda < g.agenda := by
  have waiting : g.pending.toList = event :: pending.toList := EventQueue.pop?_some popped
  have rest : Graph.Sound { g with pending } := sound.queue pending
  have created := (reports_dispatch { g with pending } journal scope event).creations_eq
  simp only [agenda, Prod.Lex.toLex_lt_toLex, created]
  simp only [creations, waiting, List.countP_cons]
  by_cases creation : event.kind = .create
  · exact .inl (by simp [creation])
  · refine .inr ⟨by simp [creation], ?_⟩
    rw [(rest.calm_dispatch journal scope creation).loudness_eq]
    simp only [loudness, waiting, List.countP_cons]
    cases loud : event.isLoud with
    | true => exact .inl (by simp)
    | false =>
      refine .inr ⟨by simp, ?_⟩
      refine (rest.unrest_dispatch journal scope (Event.quiet_iff.mpr loud)).trans_lt ?_
      have hangs : Graph.hanging { g with pending } = g.hanging := hanging_congr fun _ => rfl
      simp only [unrest, hangs, waiting, List.length_cons]
      omega

end Graph

namespace Session

variable {s s' last : Session}

/-- Handles the oldest waiting event; there is no step when none waits. -/
def step? (s : Session) : Option Session :=
  s.graph.pending.pop?.map fun (event, pending) =>
    ({ s with graph := { s.graph with pending } }.handle none event).1

theorem idle_of_step? (done : s.step? = none) : s.graph.pending.toList = [] :=
  EventQueue.pop?_none (Option.map_eq_none_iff.mp done)

/-- What a step leaves: less to be done. -/
theorem Open.step (opened : s.Open) (sound : s.graph.Sound) (stepped : s.step? = some s') :
    s'.Open ∧ s'.graph.Sound ∧ s'.graph.agenda < s.graph.agenda := by
  obtain ⟨⟨event, pending⟩, popped, rfl⟩ := Option.map_eq_some_iff.mp stepped
  obtain ⟨opened', answer⟩ := handle_open { s with graph := { s.graph with pending } }
    ⟨opened.registry, opened.phase⟩ none event
  refine ⟨opened', ?_, ?_⟩
  · rw [answer]
    exact (Registry.dispatch_evolves s.journal s.scope event _).sound (sound.queue pending)
  · rw [answer]
    exact sound.agenda_dispatch s.journal s.scope popped

/-- Repeating the step ends, however the queue was filled. -/
theorem Open.step_ends (opened : s.Open) (sound : s.graph.Sound) :
    ∃ last, Ends step? s last ∧ last.graph.pending.toList = [] := by
  induction todo : s.graph.agenda using WellFoundedLT.induction generalizing s with
  | ind todo ih =>
    cases stepped : s.step? with
    | none => exact ⟨s, .stop stepped, idle_of_step? stepped⟩
    | some next =>
      obtain ⟨opened, sound, less⟩ := opened.step sound stepped
      obtain ⟨last, ends, idle⟩ := ih _ (todo ▸ less) opened sound rfl
      exact ⟨last, .again stepped ends, idle⟩

/-- The steps are those that handling within a budget takes; what is left of the budget is given back. -/
theorem Open.handleWithin_of_ends (ends : Ends step? s last) (opened : s.Open) :
    ∃ count, ∀ own budget, s.handleWithin own (count + budget) = (last, budget) := by
  induction ends with
  | @stop s done =>
    refine ⟨0, fun own budget => ?_⟩
    have popped := Option.map_eq_none_iff.mp done
    cases budget with
    | zero => rw [Nat.add_zero, Session.handleWithin, Graph.takeEvents_of_idle (idle_of_step? done)]
    | succ budget => rw [Nat.zero_add, Session.handleWithin, popped]
  | @again s next last more _ ih =>
    obtain ⟨⟨event, pending⟩, popped, rfl⟩ := Option.map_eq_some_iff.mp more
    let t : Session := { s with graph := { s.graph with pending } }
    have answered : t.Open := ⟨opened.registry, opened.phase⟩
    have same : ∀ own, t.handle own event = ((t.handle none event).1, own) := by
      intro own
      unfold handle
      rw [answered.phase]
    obtain ⟨count, handles⟩ := ih (handle_open t answered none event).1
    refine ⟨count + 1, fun own budget => ?_⟩
    have first := handleWithin_pop popped own (count + budget)
    dsimp only at first
    rw [Nat.add_right_comm, first, same own]
    exact handles own budget

end Session

/-- Events that wait in any number, from edits or from anywhere else, are handled one after the other until
none waits, and no limit is needed for that: it is the end to which any budget leads that is large enough. -/
theorem Graph.Reachable.drains {g : Graph} (reached : g.Reachable) (scope : Scope) (pending : EventQueue) :
    let s : Session := { graph := { g with pending }, scope }
    ∃ count last, Ends Session.step? s last ∧ last.graph.pending.toList = [] ∧
      ∀ own budget, s.handleWithin own (count + budget) = (last, budget) := by
  intro s
  have opened : s.Open := ⟨rfl, rfl⟩
  obtain ⟨last, ends, idle⟩ := opened.step_ends (reached.sound.queue pending)
  obtain ⟨count, handles⟩ := opened.handleWithin_of_ends ends
  exact ⟨count, last, ends, idle, handles⟩

/-- Three events are pushed by hand: a definition got no new name, a call was created long ago, and a block that
stands in a section of others was never moved. -/
theorem Graph.drains_pushed :
    let edits : List Graph.Mutation :=
      [.add .methodDef (.default .methodDef), .add .methodCall (.call { declaration := some ⟨0⟩ }),
        .add .componentHolder .none, .add .event (.default .event), .connectSocket ⟨2⟩ Socket.components ⟨3⟩]
    let pushed : EventQueue := ⟨[.onBlock ⟨3⟩ .event (.moved none none),
      .onBlock ⟨0⟩ .methodDef (.fieldChanged Field.name none "go"), .onBlock ⟨1⟩ .methodCall .created], []⟩
    let s : Session := { graph := { edits.foldl Graph.mutate Graph.empty with pending := pushed } }
    ∃ count last, Ends Session.step? s last ∧ last.graph.pending.toList = [] ∧
      s.handleWithin none count = (last, 0) := by
  intro edits pushed s
  obtain ⟨count, last, ends, idle, handles⟩ := (Reachable.empty.foldl_mutate edits).drains {} pushed
  exact ⟨count, last, ends, idle, handles none 0⟩

end RobotBlocks
