import RobotBlocks.Proofs.Session.Settlement

/-! References that are brought in line one after the other. The turn of each of them is a revision, so what a
round over all references leads to does not depend on their order. -/
namespace RobotBlocks.Graph

variable {g h : Graph} {id r : BlockId} {done : List BlockId}
  {own : Declarations} {scope : Scope}

/-- An argument that is not dropped got a socket. -/
theorem Tree.seated_of_kept (tree : g.Tree) (kept : ¬ g.Dropped own scope done id) (member : r ∈ done)
    (argument : id ∈ argumentBlocks (g.given own scope r)) :
    ∃ i, seatOf? (g.seating own scope r).1 id = some i := by
  have left : ¬ (Revision.reconciling own scope).Dropped g done id := kept
  exact Revision.seated_of_kept tree left member argument

namespace Settled

variable (settled : Settled own scope done g h)
include settled

theorem kept_of_contains (present : h.contains id = true) : ¬ g.Dropped own scope done id :=
  settled.revised.kept_of_contains present

/-- What is gone was dropped. -/
theorem dropped_of_missing (present : g.contains id = true) (missing : h.contains id = false) :
    g.Dropped own scope done id :=
  (settled.revised.contains_eq_false_iff present).mp missing

end Settled

theorem turn_of_missing (missing : g.block? r = none) : g.turn own scope r = g := by
  have refused : g.reconcile own scope r = .error (.blockNotFound r, g) := by
    simp only [reconcile, get, missing]
    rfl
  rw [Graph.turn, refused]

/-- A reference that is there is settled at its turn, which tells of it and of its arguments. -/
theorem turn_ok {block : Block} (sound : g.Sound) (found : g.block? r = some block) :
    Settled own scope [r] g (g.turn own scope r) ∧ Reports (g.About r) g (g.turn own scope r) := by
  obtain ⟨outcome, turned, ran, after, reports⟩ : ∃ outcome turned, g.reconcile own scope r = .ok (outcome, turned) ∧
      Settled own scope [r] g turned ∧ Reports (g.About r) g turned :=
    reconcile_ok sound found
  rw [Graph.turn, ran]
  exact ⟨after, reports⟩

theorem reconciling_turns :
    (Revision.reconciling own scope).Turns (fun block => block.kind.isReference = true) (Graph.turn own scope) where
  revised sound found _ := (turn_ok sound found).1.revised
  gone := turn_of_missing

/-- The turn of a reference, be it there or gone. -/
theorem Settled.turn (settled : Settled own scope done g h) (sound : g.Sound)
    (reference : ∃ block, g.block? r = some block ∧ block.kind.isReference = true) (todo : r ∉ done) :
    Settled own scope (r :: done) g (h.turn own scope r) ∧ Reports (h.About r) h (h.turn own scope r) := by
  obtain ⟨before, present, refers⟩ := reference
  refine ⟨.of_revised (settled.revised.turn reconciling_turns sound present refers todo), ?_⟩
  cases there : h.block? r with
  | none =>
    rw [turn_of_missing there]
    exact .refl h
  | some after =>
    obtain ⟨own_block, found, same⟩ := settled.before there
    cases present.symm.trans found
    rw [if_neg todo] at same
    exact (turn_ok settled.sound there).2

theorem reconcileEach_eq (g : Graph) (ids : List BlockId) (report : ReconcileReport) :
    (reconcileEach own scope g ids report).2 = ids.foldl (Graph.turn own scope) g := by
  induction ids generalizing g report with
  | nil => rfl
  | cons id ids ih =>
    unfold Graph.reconcileEach
    rw [List.foldl_cons]
    cases ran : g.reconcile own scope id with
    | error error => rw [ih, Graph.turn, ran]
    | ok result => rw [ih, Graph.turn, ran]

theorem Sound.reconcileAll_settled (sound : g.Sound)
    (reference : ∀ r ∈ g.references, ∃ block, g.block? r = some block ∧ block.kind.isReference = true)
    (scope : Scope) : Settled (.collect g) scope g.references g (g.reconcileAll scope).2 := by
  have distinct : g.references.Nodup := nodup_of_ascending (sound.tree.filter_blocks_ascending _)
  rw [reconcileAll, reconcileEach_eq]
  exact .of_revised (reconciling_turns.run sound reference distinct)

end RobotBlocks.Graph
