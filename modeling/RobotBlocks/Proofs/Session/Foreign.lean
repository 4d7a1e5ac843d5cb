import RobotBlocks.Proofs.Session.Placement
import RobotBlocks.Proofs.Session.Stable

/-! References to other modules. What happens to a module's own declarations is carried to the module's own
references alone, so a reference to another module changes only when it is brought in line. -/
namespace RobotBlocks

/-- A reference to a declaration of another module. -/
def Block.isForeign (block : Block) : Bool :=
  block.kind.isReference && block.extra.call?.any fun call => !call.target.isLocal

theorem Block.isForeign_eq_true {block : Block} : block.isForeign = true ↔
    block.kind.isReference = true ∧ ∃ call, block.extra = .call call ∧ call.target.isLocal = false := by
  simp [isForeign, Option.any_eq_true, Graph.call?_eq_some]

theorem Block.isForeign_congr {block other : Block} (kind : other.kind = block.kind)
    (extra : other.extra = block.extra) : other.isForeign = block.isForeign := by
  simp only [isForeign, kind, extra]

/-- A turn leaves the kind of a reference and its target. -/
theorem Scope.isForeign_settle (scope : Scope) (own : Declarations) (block : Block) :
    (scope.settle own block).isForeign = block.isForeign := by
  cases carried : block.extra.call? with
  | none => simp [settle, carried]
  | some call =>
    have carries := Graph.call?_eq_some.mp carried
    cases resolved : scope.lookup own block.kind call with
    | found signature =>
      rw [settle_of_found carries resolved]
      split
      · rfl
      · simp [Block.isForeign, Graph.callBlock, carries, ExtraState.call?, Signature.call]
    | missing => simp only [settle, carried, resolved]; rfl
    | unresolvable => simp only [settle, carried, resolved]

namespace Graph

variable {g g' g'' : Graph} {id r : BlockId} {block : Block} {except : BlockId → Prop} {scope : Scope}
  {own : Declarations}

/-- References to other modules, apart from the excepted ones, are as they were or gone; their fields
may have changed. -/
def Spares (except : BlockId → Prop) (g g' : Graph) : Prop :=
  ∀ r after, ¬ except r → g'.block? r = some after → after.isForeign = true →
    ∃ before, g.block? r = some before ∧ before.kind = after.kind ∧ before.extra = after.extra ∧
      before.warning = after.warning

/-- The block is no reference to another module. -/
def Native (g : Graph) (id : BlockId) : Prop := ∀ block, g.block? id = some block → block.isForeign = false

namespace Spares

theorem of_blocks (blocks : ∀ {id after}, g'.block? id = some after → g.block? id = some after) :
    Spares except g g' :=
  fun _ _ _ found _ => ⟨_, blocks found, rfl, rfl, rfl⟩

theorem refl (g : Graph) : Spares except g g := of_blocks id

theorem trans (h : Spares except g g') (k : Spares except g' g'') : Spares except g g'' := by
  intro r after apart found foreign
  obtain ⟨middle, there, kind, extra, warning⟩ := k r after apart found foreign
  obtain ⟨before, here, kind', extra', warning'⟩ :=
    h r middle apart there ((Block.isForeign_congr kind extra).trans foreign)
  exact ⟨before, here, kind'.trans kind, extra'.trans extra, warning'.trans warning⟩

theorem native (h : Spares except g g') (held : except id ∨ g.Native id) : except id ∨ g'.Native id := by
  by_cases apart : except id
  · exact .inl apart
  · refine .inr fun after found => Bool.eq_false_iff.mpr fun foreign => ?_
    obtain ⟨before, there, kind, extra, -⟩ := h id after apart found foreign
    have native := held.resolve_left apart before there
    rw [Block.isForeign_congr kind extra, foreign] at native
    cases native

theorem deleteBlock {heal : Bool} {doomed : List BlockId} (h : g.deleteBlock id heal = .ok (doomed, g')) :
    Spares except g g' := by
  obtain ⟨-, rfl, rfl⟩ := deleteBlock_eq_ok.mp h
  refine of_blocks fun {asked after} found => ?_
  rw [block?_foldl_removeNode] at found
  split at found
  · cases found
  · rwa [(Moves.detach ..).blocks] at found

theorem rearranges : Rearranges (Spares except) where
  refl := refl
  trans := trans
  unplug h := of_blocks fun found => (Moves.unplug h).blocks _ ▸ found
  connectSocket h := of_blocks fun found => (Moves.connectSocket h).blocks _ ▸ found
  deleteBlock := deleteBlock

theorem setWarning {warning : Option String} (h : g.setWarning id warning = .ok g')
    (held : except id ∨ g.Native id) : Spares except g g' := by
  intro r after apart found foreign
  rw [block?_setWarning h] at found
  split at found
  · next here =>
    subst here
    obtain ⟨before, there, rfl⟩ := Option.map_eq_some_iff.mp found
    have native := held.resolve_left apart before there
    exact absurd foreign (Bool.eq_false_iff.mp native)
  · exact ⟨after, found, rfl, rfl, rfl⟩

theorem setField {name value : String} {old : Option String} (h : g.setField id name value = .ok (old, g')) :
    Spares except g g' := by
  intro r after _ found _
  rw [block?_setField h] at found
  split at found
  · obtain ⟨before, there, rfl⟩ := Option.map_eq_some_iff.mp found
    exact ⟨before, there, rfl, rfl, rfl⟩
  · exact ⟨after, found, rfl, rfl, rfl⟩

/-- A declaration is no reference, before and after it gets other parameters. -/
theorem setSignature {changes : List ParamChange} (h : g.setSignature id changes = .ok g') :
    Spares except g g' := by
  obtain ⟨block, there, declares, -⟩ := setSignature_cases h
  intro r after _ found foreign
  rw [block?_setSignature h] at found
  split at found
  · next here =>
    subst here
    rw [there] at found
    cases found
    obtain ⟨-, call, carried, -⟩ := Block.isForeign_eq_true.mp foreign
    rw [Block.extra_showParams] at carried
    have silent := (call?_of_params declares (changes.map (·.param))).2.1
    simp only at carried
    rw [carried] at silent
    cases silent
  · exact ⟨after, found, rfl, rfl, rfl⟩

theorem updateCall {edit : CallState → CallState} (h : g.updateCall id edit = .ok g')
    (target : ∀ call, (edit call).target = call.target) (held : except id ∨ g.Native id) :
    Spares except g g' := by
  obtain ⟨block, call, there, carried, -, blocks⟩ := updateCall_cases h
  intro r after apart found foreign
  rw [blocks] at found
  split at found
  · next here =>
    subst here
    cases found
    have native := held.resolve_left apart block there
    obtain ⟨reference, call', carried', abroad⟩ := Block.isForeign_eq_true.mp foreign
    cases carried'
    have foreign : block.isForeign = true :=
      Block.isForeign_eq_true.mpr ⟨reference, call, carried, target call ▸ abroad⟩
    exact absurd foreign (Bool.eq_false_iff.mp native)
  · exact ⟨after, found, rfl, rfl, rfl⟩

theorem answers : Answers (fun g id => except id ∨ g.Native id) (Spares except) where
  toRearranges := rearranges
  stays spares held := spares.native held
  setWarning held h := setWarning h held
  updateCall held h target := updateCall h target held

theorem checkPlacement {placement : Placement} (h : g.checkPlacement id = .ok (placement, g')) :
    Spares except g g' := by
  simp only [Graph.checkPlacement, bind_eq_ok, get_eq_ok] at h
  obtain ⟨block, found, h⟩ := h
  cases bound : PlacementRule.ofKind? block.kind with
  | none =>
    simp only [bound, pure_eq_ok, Prod.mk.injEq] at h
    exact h.2 ▸ refl g
  | some rule =>
    -- No rule binds a reference.
    have native : g.Native id := by
      intro other here
      cases found.symm.trans here
      refine Bool.eq_false_iff.mpr fun foreign => ?_
      have reference := (Block.isForeign_eq_true.mp foreign).1
      have unbound : ∀ kind : Kind, kind.isReference = true → PlacementRule.ofKind? kind = none := by
        intro kind
        cases kind <;> decide
      cases bound.symm.trans (unbound block.kind reference)
    simp only [bound] at h
    split at h
    · simp only [bind_eq_ok, pure_eq_ok, Prod.mk.injEq] at h
      obtain ⟨cleared, clears, -, rfl⟩ := h
      exact setWarning clears (.inr native)
    · simp only [bind_eq_ok, pure_eq_ok, Prod.mk.injEq] at h
      obtain ⟨loose, freed, warned, warns, -, rfl⟩ := h
      have first : Spares except g loose := rearranges.unplug freed
      exact first.trans (setWarning warns (first.native (.inr native)))

end Spares

theorem Sound.native_of_caller {declaration : BlockId} (sound : g.Sound) (member : id ∈ g.callersOf declaration) :
    g.Native id := by
  obtain ⟨block, call, found, -, carried, isLocal, -⟩ := (mem_callersOf sound).mp member
  intro other here
  cases found.symm.trans here
  refine Bool.eq_false_iff.mpr fun foreign => ?_
  obtain ⟨-, call', carried', abroad⟩ := Block.isForeign_eq_true.mp foreign
  cases carried.symm.trans carried'
  simp [isLocal] at abroad

/-! Properties of references. -/

/-- A property that shows in the kind, the state and the warning of a block. -/
def Outward (P : Block → Prop) : Prop :=
  ∀ ⦃block other : Block⦄, other.kind = block.kind → other.extra = block.extra →
    other.warning = block.warning → P block → P other

/-- All references to other modules, apart from the excepted ones, have a property. -/
def Foreign (P : Block → Prop) (except : BlockId → Prop) (g : Graph) : Prop :=
  ∀ r block, ¬ except r → g.block? r = some block → block.isForeign = true → P block

namespace Foreign

variable {P : Block → Prop} (outward : Outward P)
include outward

theorem spares (holds : g.Foreign P except) (spares : Spares except g g') : g'.Foreign P except := by
  intro r after apart found foreign
  obtain ⟨before, there, kind, extra, warning⟩ := spares r after apart found foreign
  have still := holds r before apart there ((Block.isForeign_congr kind extra).trans foreign)
  exact outward kind.symm extra.symm warning.symm still

/-- The turn of one reference. -/
theorem turn (holds : g.Foreign P (· = r)) (sound : g.Sound)
    (settle : ∀ block, g.block? r = some block → block.isForeign = true → P (scope.settle own block)) :
    (g.turn own scope r).Foreign P fun _ => False := by
  have spares : Spares (· = r) g (g.turn own scope r) := by
    have leads : Leads (fun result => Spares (· = r) g result.2) (Spares (· = r) g) (g.reconcile own scope r) :=
      Spares.answers.reconcile own scope (.inl rfl)
    unfold Graph.turn
    split
    · next ran => exact leads.ok ran
    · next ran => exact leads.error ran
  intro other after _ found foreign
  by_cases here : other = r
  · subst here
    cases there : g.block? other with
    | none =>
      rw [turn_of_missing there, there] at found
      cases found
    | some before =>
      have settled : Settled own scope [other] g (g.turn own scope other) := (turn_ok sound there).1
      have same := settled.block (settled.kept_of_contains (contains_iff_block.mpr ⟨after, found⟩))
      rw [if_pos (List.mem_singleton_self _), there] at same
      cases found.symm.trans same
      exact settle before there (Scope.isForeign_settle scope own before ▸ foreign)
  · exact holds.spares outward spares other after here found foreign

end Foreign
end Graph

/-! Reactions. -/

namespace Registry

variable {g : Graph} {journal : List String} {scope : Scope} {P : Block → Prop}

theorem reconcile_turn (g : Graph) (scope : Scope) (id : BlockId) (event : Event) :
    (Reaction.reconcile scope id event g).graph = g.turn (.collect g) scope id := by
  unfold Reaction.reconcile Graph.turn
  cases g.reconcile (.collect g) scope id <;> rfl

section Answers

variable (outward : Graph.Outward P) (holds : g.Foreign P fun _ => False)
include outward holds

theorem foreign_place (id : BlockId) (event : Event) :
    (Reaction.place scope id event g).graph.Foreign P fun _ => False := by
  unfold Reaction.place
  cases checked : g.checkPlacement id with
  | error error => exact holds
  | ok result => exact holds.spares outward (.checkPlacement checked)

/-- What is carried to the references to a declaration is carried to the module's own references. -/
theorem foreign_propagate (sound : g.Sound) (id : BlockId) (event : Event) :
    (Reaction.propagate scope id event g).graph.Foreign P fun _ => False := by
  exact holds.spares outward (propagate_answers Graph.Spares.answers
    (fun caller member => .inr (sound.native_of_caller member)) scope event)

theorem foreign_orphan (sound : g.Sound) (id : BlockId) (event : Event) :
    (Reaction.orphan scope id event g).graph.Foreign P fun _ => False :=
  holds.spares outward (Graph.Spares.answers.flagOrphans fun _ member => .inr (sound.native_of_caller member))

/-- The answer to an event keeps what a turn keeps. -/
theorem foreign_dispatch (sound : g.Sound)
    (settle : ∀ block, block.isForeign = true → P block → P (scope.settle (.collect g) block)) (event : Event) :
    (standard.dispatch journal scope event g).1.Foreign P fun _ => False := by
  refine dispatch_cases event holds (foreign_place outward holds)
    (fun id _ _ _ _ => foreign_propagate outward holds sound id event) (foreign_orphan outward holds sound)
    fun id _ _ _ => ?_
  rw [reconcile_turn]
  exact Graph.Foreign.turn outward (fun r block _ => holds r block not_false) sound
    fun block found foreign => settle block foreign (holds id block not_false found foreign)

end Answers
end Registry
end RobotBlocks
