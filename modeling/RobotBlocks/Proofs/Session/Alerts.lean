import RobotBlocks.Proofs.Session.Sectioned

/-! What quiet events do to references. No reaction to them edits a reference; all that can become of one
is that it is warned of a declaration that is gone. -/
namespace RobotBlocks

/-- A reference of which it was told, if at all, that its declaration is gone. -/
inductive Block.Alerted (before : Block) : Block → Prop
  | still : Alerted before before
  | gone {call : CallState} (carried : before.extra = .call call) :
      Alerted before { before with warning := some (missingWarning call.name) }

namespace Block.Alerted

variable {a b c : Block}

theorem kind (h : a.Alerted b) : b.kind = a.kind := by cases h <;> rfl

theorem extra (h : a.Alerted b) : b.extra = a.extra := by cases h <;> rfl

theorem trans (h : a.Alerted b) (k : b.Alerted c) : a.Alerted c := by
  cases k with
  | still => exact h
  | gone carried =>
    cases h with
    | still => exact .gone carried
    | gone carried' => exact .gone carried

end Block.Alerted

namespace Graph

variable {g g' g'' : Graph} {id : BlockId} {scope : Scope} {event : Event}

/-- All blocks are still there, and references were alerted at most. -/
structure Alerts (g g' : Graph) : Prop where
  kinds : ∀ id, (g'.block? id).map (·.kind) = (g.block? id).map (·.kind)
  alerted : ∀ {r before after}, g.block? r = some before → g'.block? r = some after →
    before.kind.isReference = true → before.Alerted after

/-- A reference with a call. -/
def Calling (g : Graph) (id : BlockId) : Prop :=
  ∃ block call, g.block? id = some block ∧ block.kind.isReference = true ∧ block.extra = .call call

theorem Alerts.block (alerts : g.Alerts g') {r : BlockId} {before : Block} (found : g.block? r = some before)
    (reference : before.kind.isReference = true) : ∃ after, g'.block? r = some after ∧ before.Alerted after := by
  have kind := alerts.kinds r
  rw [found, Option.map_some, Option.map_eq_some_iff] at kind
  obtain ⟨after, there, -⟩ := kind
  exact ⟨after, there, alerts.alerted found there reference⟩

theorem Alerts.before (alerts : g.Alerts g') {r : BlockId} {after : Block} (there : g'.block? r = some after) :
    ∃ before, g.block? r = some before ∧ before.kind = after.kind := by
  have kind := alerts.kinds r
  rwa [there, Option.map_some, eq_comm, Option.map_eq_some_iff] at kind

theorem Alerts.missing_iff (alerts : g.Alerts g') {r : BlockId} : g'.block? r = none ↔ g.block? r = none := by
  rw [← Option.map_eq_none_iff, alerts.kinds, Option.map_eq_none_iff]

theorem Calling.alerts (calling : g.Calling id) (alerts : g.Alerts g') : g'.Calling id := by
  obtain ⟨before, call, found, reference, carried⟩ := calling
  obtain ⟨after, there, alerted⟩ := alerts.block found reference
  exact ⟨after, call, there, alerted.kind.symm ▸ reference, alerted.extra.trans carried⟩

namespace Alerts

theorem refl (g : Graph) : g.Alerts g := by
  refine ⟨fun _ => rfl, fun found there _ => ?_⟩
  cases found.symm.trans there
  exact .still

theorem trans (h : g.Alerts g') (k : g'.Alerts g'') : g.Alerts g'' := by
  refine ⟨fun id => (k.kinds id).trans (h.kinds id), fun found there reference => ?_⟩
  obtain ⟨middle, here, first⟩ := h.block found reference
  exact first.trans (k.alerted here there (first.kind.symm ▸ reference))

theorem moves (h : g.Moves g') : g.Alerts g' := by
  refine ⟨fun id => congrArg _ (h.blocks id), fun found there _ => ?_⟩
  cases found.symm.trans ((h.blocks _).symm.trans there)
  exact .still

theorem queue (g : Graph) (pending : EventQueue) : g.Alerts { g with pending } := moves ⟨rfl, fun _ => rfl⟩

theorem setWarning {warning : Option String} (h : g.setWarning id warning = .ok g')
    (fits : ∀ block, g.block? id = some block → block.kind.isReference = true →
      block.Alerted { block with warning }) : g.Alerts g' := by
  have blocks := block?_setWarning h
  constructor
  · intro asked
    rw [blocks]
    split
    · rw [Option.map_map]
      rfl
    · rfl
  · intro r before after found there reference
    rw [blocks, found] at there
    split at there
    · next here =>
      cases there
      exact fits before (here ▸ found) reference
    · cases there
      exact .still

/-- No rule about places is about references. -/
theorem checkPlacement {placement : Placement} (h : g.checkPlacement id = .ok (placement, g')) :
    g.Alerts g' := by
  simp only [Graph.checkPlacement, bind_eq_ok, get_eq_ok] at h
  obtain ⟨block, found, h⟩ := h
  split at h
  · simp only [pure_eq_ok, Prod.mk.injEq] at h
    exact h.2 ▸ refl g
  · next rule bound =>
    have other : block.kind.isReference = false := by
      cases is : block.kind <;> first | rfl | (rw [is] at bound; cases bound)
    have warns : ∀ {h h' : Graph} {warning : Option String}, h.block? id = some block →
        h.setWarning id warning = .ok h' → h.Alerts h' := by
      intro h h' warning here warned
      refine setWarning warned fun own there reference => ?_
      cases here.symm.trans there
      rw [other] at reference
      cases reference
    split at h
    · simp only [bind_eq_ok, pure_eq_ok, Prod.mk.injEq] at h
      obtain ⟨cleared, clears, -, rfl⟩ := h
      exact warns found clears
    · simp only [bind_eq_ok, pure_eq_ok, Prod.mk.injEq] at h
      obtain ⟨loose, freed, warned, flags, -, rfl⟩ := h
      have moved := Moves.unplug freed
      exact (moves moved).trans (warns ((moved.blocks id).trans found) flags)

theorem flagOrphans (sound : g.Sound) (declaration : BlockId) : g.Alerts (g.flagOrphans declaration).2 := by
  refine updateEach_obeys (P := Calling) refl trans (fun alerts calling => calling.alerts alerts)
    (fun {g _} calling => .whole (fun _ warned => setWarning warned fun block found reference => ?_) (refl g))
    fun id member => ?_
  · obtain ⟨own, call, here, -, carried⟩ := calling
    cases found.symm.trans here
    simp only [found, Option.bind_some, call?_eq_some.mpr carried, Option.elim_some]
    exact .gone carried
  · obtain ⟨block, call, found, reference, carried, -⟩ := (mem_callersOf sound).mp member
    exact ⟨block, call, found, reference, carried⟩

theorem dispatch (sound : g.Sound) (journal : List String) (scope : Scope) (quiet : event.Quiet) :
    g.Alerts (Registry.standard.dispatch journal scope event g).1 := by
  refine Registry.dispatch_quiet_cases quiet (refl g) (fun id event => ?_) fun id event => flagOrphans sound id
  unfold Reaction.place
  cases checked : g.checkPlacement id with
  | error error => exact refl g
  | ok result => exact checkPlacement checked

end Alerts
end Graph

namespace Session

variable {s : Session} {g : Graph} {event : Event}

/-- Quiet events alert references at most, however many of them are handled. -/
theorem Open.alerts (opened : s.Open) (sound : s.graph.Sound)
    (quiet : ∀ event ∈ s.graph.pending.toList, event.Quiet) (own : Option Declarations) (budget : Nat) :
    (s.handleWithin own budget).1.Rested ∧ s.graph.Alerts (s.handleWithin own budget).1.graph := by
  obtain ⟨still, sound, -, alerts⟩ := opened.handleWithin
    (P := fun g => g.Sound ∧ (∀ event ∈ g.pending.toList, event.Quiet) ∧ s.graph.Alerts g)
    ⟨sound, quiet, .refl _⟩
    (fun ⟨sound, _, alerts⟩ => ⟨sound.queue {}, List.forall_mem_nil _, alerts.trans (.queue _ _)⟩)
    (fun {g event pending} journal ⟨sound, quiet, alerts⟩ waiting => by
      have sound' := sound.queue pending
      rw [waiting] at quiet
      obtain ⟨first, others⟩ := List.forall_mem_cons.mp quiet
      have calm := Registry.dispatch_quiet (g := { g with pending }) journal s.scope first
      exact ⟨(Registry.dispatch_evolves ..).sound sound', calm.quiet others,
        (alerts.trans (.queue g pending)).trans (.dispatch sound' journal s.scope first)⟩) own budget
  exact ⟨⟨still, sound, pending_handleWithin ..⟩, alerts⟩

end Session
end RobotBlocks
