import RobotBlocks.Proofs.Session.Stable

/-! References that are in line. Bringing all references of a graph in line changes nothing exactly if
each of them shows the declaration to which it resolves and has no warning, or is warned because its
owner declares nothing that matches. -/
namespace RobotBlocks
namespace Scope

variable {scope : Scope} {own : Declarations} {block other : Block}

/-- A reference shows the declaration to which it resolves, and it is warned if there is none. A
reference whose owner is not at hand may show anything. -/
structure InLine (scope : Scope) (own : Declarations) (block : Block) : Prop where
  current : scope.Current own block
  found : ∀ call signature, block.extra.call? = some call →
    scope.lookup own block.kind call = .found signature → block.warning = none
  missing : ∀ call, block.extra.call? = some call → scope.lookup own block.kind call = .missing →
    block.warning = some (missingWarning call.name)

theorem InLine.congr (inLine : scope.InLine own block) (kind : other.kind = block.kind)
    (extra : other.extra = block.extra) (warning : other.warning = block.warning) :
    scope.InLine own other := by
  refine ⟨inLine.current.congr kind extra, fun call signature carried resolved => ?_,
    fun call carried resolved => ?_⟩
  · rw [warning]
    exact inLine.found call signature (extra ▸ carried) (kind ▸ resolved)
  · rw [warning]
    exact inLine.missing call (extra ▸ carried) (kind ▸ resolved)

/-- A turn leaves what is in line, and nothing else, as it is. -/
theorem settle_eq_self_iff : scope.settle own block = block ↔ scope.InLine own block := by
  cases carried : block.extra.call? with
  | none =>
    have idle : scope.settle own block = block := by simp [settle, carried]
    refine iff_of_true idle ⟨?_, ?_, ?_⟩ <;> simp [Current, carried]
  | some call =>
    have only : ∀ {call'}, block.extra.call? = some call' → call' = call :=
      fun carried' => Option.some.inj (carried'.symm.trans carried)
    cases resolved : scope.lookup own block.kind call with
    | found signature =>
      have settles := settle_of_found (Graph.call?_eq_some.mp carried) resolved
      constructor
      · intro same
        rw [settles] at same
        split at same
        · next shows =>
          refine ⟨fun call' signature' carried' resolved' => ?_, fun _ _ _ _ => by rw [← same],
            fun call' carried' resolved' => ?_⟩
          · cases only carried'
            cases resolved.symm.trans resolved'
            exact shows
          · cases only carried'
            cases resolved.symm.trans resolved'
        · next differs =>
          have renewed := congrArg (·.extra.call?) same
          rw [carried] at renewed
          exact absurd (Option.some.inj renewed).symm differs
      · intro inLine
        rw [settles, if_pos (inLine.current call signature carried resolved)]
        have unwarned := inLine.found call signature carried resolved
        cases block
        cases unwarned
        rfl
    | missing =>
      have settles : scope.settle own block = { block with warning := some (missingWarning call.name) } := by
        simp [settle, carried, resolved]
      rw [settles]
      constructor
      · intro same
        refine ⟨fun call' signature' carried' resolved' => ?_, fun call' signature' carried' resolved' => ?_,
          fun call' carried' _ => ?_⟩
        · cases only carried'
          cases resolved.symm.trans resolved'
        · cases only carried'
          cases resolved.symm.trans resolved'
        · cases only carried'
          rw [← same]
      · intro inLine
        have warned := inLine.missing call carried resolved
        cases block
        cases warned
        rfl
    | unresolvable =>
      refine iff_of_true (by simp [settle, carried, resolved]) ⟨fun call' signature' carried' resolved' => ?_,
        fun call' signature' carried' resolved' => ?_, fun call' carried' resolved' => ?_⟩ <;>
      · cases only carried'
        cases resolved.symm.trans resolved'

/-- A reference that had its turn is in line. -/
theorem inLine_settle (clear : scope.Clear) (unambiguous : own.Unambiguous) (block : Block) :
    scope.InLine own (scope.settle own block) := by
  have unmoved : scope.settle own (scope.settle own block) = scope.settle own block →
      scope.InLine own (scope.settle own block) := settle_eq_self_iff.mp
  cases carried : block.extra.call? with
  | none => exact unmoved (by simp [settle, carried])
  | some call =>
    cases resolved : scope.lookup own block.kind call with
    | found signature =>
      have carries := Graph.call?_eq_some.mp carried
      have again := lookup_again clear unambiguous resolved
      have renewed : ∀ after : Block, after.kind = block.kind →
          after.extra = .call (signature.call call.target) → after.warning = none →
            scope.InLine own after := by
        intro after kind extra unwarned
        have found : ∀ {call' result}, after.extra.call? = some call' →
            scope.lookup own after.kind call' = result →
            call' = signature.call call.target ∧ result = .found signature := by
          intro call' result carried' resolved'
          rw [extra] at carried'
          cases carried'
          rw [kind] at resolved'
          exact ⟨rfl, resolved'.symm.trans again⟩
        refine ⟨fun call' signature' carried' resolved' => ?_, fun _ _ _ _ => unwarned,
          fun call' carried' resolved' => ?_⟩
        · obtain ⟨rfl, same⟩ := found carried' resolved'
          cases same
          rfl
        · cases (found carried' resolved').2
      rw [settle_of_found carries resolved]
      split
      · next shows => exact renewed _ rfl (carries.trans (congrArg ExtraState.call shows)) rfl
      · exact renewed _ rfl rfl rfl
    | missing => exact unmoved (by simp [settle, carried, resolved])
    | unresolvable => exact unmoved (by simp [settle, carried, resolved])

end Scope

theorem ReconcileReport.le_count (report : ReconcileReport) (outcome : Reconciled) :
    report.updated ≤ (report.count outcome).updated := by
  cases outcome <;> simp [count]

theorem ReconcileReport.count_updated {report : ReconcileReport} {outcome : Reconciled}
    (same : (report.count outcome).updated = report.updated) : outcome ≠ .updated := by
  rintro rfl
  simp [count] at same

namespace Graph

variable {g g' : Graph} {r : BlockId} {block : Block} {own : Declarations} {scope : Scope}

/-- The turn of a reference that is in line. -/
theorem Sound.reconcile_inLine (sound : g.Sound) (found : g.block? r = some block)
    (inLine : scope.InLine own block) :
    ∃ outcome, outcome ≠ .updated ∧ g.reconcile own scope r = .ok (outcome, g) := by
  cases carried : block.extra.call? with
  | none =>
    refine ⟨.unchanged, by decide, ?_⟩
    simp [reconcile, get_eq_ok.mpr found, mapError_ok, carried, bind, Except.bind, pure, Except.pure]
  | some call =>
    cases resolved : scope.lookup own block.kind call with
    | found signature =>
      have shows := inLine.current call signature carried resolved
      have fresh : isStale call signature = false := by
        rw [shows]
        simp [isStale, Signature.call]
      have args : call.args = signature.args := congrArg CallState.args shows
      have clears := sound.tree.setWarning_same found (inLine.found call signature carried resolved)
      have ran : g.reconcile own scope r = .ok (_, g) :=
        reconcile_of_found found (call?_eq_some.mp carried) resolved
          (by rw [if_neg (by simp [fresh])]; rfl) (if_pos args) clears
      exact ⟨_, by simp [fresh, args], ran⟩
    | missing =>
      have warns := sound.tree.setWarning_same found (inLine.missing call carried resolved)
      refine ⟨.dangling, by decide, ?_⟩
      simp [reconcile, get_eq_ok.mpr found, mapError_ok, carried, resolved, warns, bind, Except.bind, pure,
        Except.pure]
    | unresolvable =>
      refine ⟨.skipped, by decide, ?_⟩
      simp [reconcile, get_eq_ok.mpr found, mapError_ok, carried, resolved, bind, Except.bind, pure, Except.pure]

/-- A turn that renews no call queues no event. -/
theorem pending_reconcile {outcome : Reconciled} (h : g.reconcile own scope r = .ok (outcome, g'))
    (other : outcome ≠ .updated) : g'.pending = g.pending := by
  have warned : ∀ {warning}, g.setWarning r warning = .ok g' → g'.pending = g.pending := by
    intro warning warns
    obtain ⟨-, rfl⟩ := setWarning_eq_ok.mp warns
    rfl
  rcases reconcile_cases h with ⟨-, rfl⟩ | ⟨-, name, warns⟩ | found
  · rfl
  · exact warned warns
  · obtain ⟨call, signature, named, shaped, got, ⟨block, found, resolved⟩, renames, reshapes, clears⟩ := found
    obtain ⟨same, here, carried⟩ := getCall_eq_ok.mp got
    cases found.symm.trans here
    have renamed : (if isStale call signature then g.updateCall r fun call =>
        { call with
          declaration := some signature.block
          name := signature.name
          returnType := signature.returnType } else pure g) = .ok named := by
      split at renames
      · next stale => rwa [if_pos stale]
      · next fresh => rw [if_neg fresh, renames]; rfl
    have reshaped : (if call.args = signature.args then pure named
        else named.regenerateArguments r (signature.args.map .kept)) = .ok shaped := by
      split at reshapes
      · next differs => rwa [if_neg differs]
      · next same => rw [if_pos (not_not.mp same), reshapes]; rfl
    -- The outcome tells that neither the call nor the arguments were renewed.
    cases h.symm.trans (reconcile_of_found found carried resolved renamed reshaped clears)
    split at other
    · exact absurd rfl other
    · next still =>
      simp only [Bool.or_eq_true, decide_eq_true_eq, not_or] at still
      rw [if_neg still.1] at renames
      rw [if_neg still.2] at reshapes
      subst renames reshapes
      exact warned clears

/-- Turns of references that are in line. -/
theorem Sound.reconcileEach_inLine (sound : g.Sound) {ids : List BlockId} (report : ReconcileReport)
    (inLine : ∀ r ∈ ids, ∀ block, g.block? r = some block → scope.InLine own block) :
    (reconcileEach own scope g ids report).2 = g ∧
      (reconcileEach own scope g ids report).1.updated = report.updated := by
  induction ids generalizing report with
  | nil => exact ⟨rfl, rfl⟩
  | cons r ids ih =>
    have rest := fun report => ih report fun other member => inLine other (List.mem_cons_of_mem _ member)
    unfold reconcileEach
    cases found : g.block? r with
    | none =>
      have refused : g.reconcile own scope r = .error (.blockNotFound r, g) := by
        simp only [reconcile, get, found]
        rfl
      rw [refused]
      exact rest report
    | some block =>
      obtain ⟨outcome, other, ran⟩ := sound.reconcile_inLine found (inLine r (List.mem_cons_self ..) block found)
      rw [ran]
      obtain ⟨same, count⟩ := rest (report.count outcome)
      refine ⟨same, count.trans ?_⟩
      cases outcome <;> first | rfl | exact absurd rfl other

theorem updated_le_reconcileEach (g : Graph) (ids : List BlockId) (report : ReconcileReport) :
    report.updated ≤ (reconcileEach own scope g ids report).1.updated := by
  induction ids generalizing g report with
  | nil => exact Nat.le_refl _
  | cons r ids ih =>
    unfold reconcileEach
    split
    · exact (report.le_count _).trans (ih ..)
    · exact ih ..

/-- Turns that renew no call queue no event. -/
theorem Sound.pending_reconcileEach (sound : g.Sound) (ids : List BlockId) (report : ReconcileReport)
    (same : (reconcileEach own scope g ids report).1.updated = report.updated) :
    (reconcileEach own scope g ids report).2.pending = g.pending := by
  induction ids generalizing g report with
  | nil => rfl
  | cons r ids ih =>
    unfold reconcileEach at same ⊢
    split at same
    · next outcome after ran =>
      have still : (report.count outcome).updated = report.updated :=
        Nat.le_antisymm (same ▸ updated_le_reconcileEach ..) (report.le_count outcome)
      rw [ih (((Evolves.reconcile ..).ok ran).sound sound) _ (same.trans still.symm),
        pending_reconcile ran (ReconcileReport.count_updated still)]
    · next stop left ran =>
      cases sound.reconcile_error ran
      exact ih sound report same

/-- Bringing all references in line changes nothing if they are in line already. -/
theorem Sound.reconcileAll_still_iff (sound : g.Sound) (scope : Scope) :
    ((g.reconcileAll scope).1.updated = 0 ∧ (g.reconcileAll scope).2.nodes = g.nodes) ↔
      ∀ r block, g.block? r = some block → block.kind.isReference = true →
        scope.InLine (.collect g) block := by
  constructor
  · rintro ⟨-, same⟩ r block found reference
    have settled := sound.reconcileAll_settled (fun _ => sound.mem_references.mp) scope
    have still : (g.reconcileAll scope).2.block? r = g.block? r := by
      simp only [block?, node?, same]
    have kept := settled.kept_of_contains (contains_iff_block.mpr ⟨block, still.trans found⟩)
    have turned := settled.block kept
    rw [if_pos (sound.mem_references.mpr ⟨block, found, reference⟩), still, found] at turned
    exact Scope.settle_eq_self_iff.mp (Option.some.inj turned).symm
  · intro inLine
    obtain ⟨same, count⟩ := sound.reconcileEach_inLine {} fun r member block found => by
      obtain ⟨own, here, reference⟩ := sound.mem_references.mp member
      cases here.symm.trans found
      exact inLine r block found reference
    exact ⟨count, congrArg Graph.nodes same⟩

end Graph
end RobotBlocks
