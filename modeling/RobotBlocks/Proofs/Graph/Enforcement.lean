import RobotBlocks.Placement
import RobotBlocks.Proofs.Graph.Arrangement
import RobotBlocks.Proofs.Graph.RoundTrip

/-! Enforcing where declarations may stand. The check climbs to the head of the stack that a block stands in.
A block whose stack hangs from its section stays; any other one is taken out, the stack closes up behind it,
and what the check leaves passes the same check again unchanged. -/
namespace RobotBlocks

namespace PlacementRule

/-- The section is the one that the rule asks for. -/
def names (rule : PlacementRule) (g : Graph) (place : BlockId × String) : Bool :=
  place.2 = rule.socket && (g.block? place.1).any fun block => block.kind = rule.container

theorem ofKind?_container {kind : Kind} {rule : PlacementRule}
    (bound : ofKind? kind = some rule) : rule.container = .componentHolder := by
  cases kind <;> cases bound <;> rfl

theorem names_iff {rule : PlacementRule} {g : Graph} {place : BlockId × String} :
    rule.names g place = true ↔ place.2 = rule.socket ∧
      ∃ block, g.block? place.1 = some block ∧ block.kind = rule.container := by
  simp [names, Option.any_eq_true]

end PlacementRule

namespace Graph

variable {g g' g'' : Graph} {id other : BlockId} {block : Block} {rule : PlacementRule} {place : BlockId × Link}
  {warning : Option String}

/-! Stacks that close up. -/

/-- What stands below a block once another one is taken out: below the one above it comes what followed it. -/
theorem Tree.next?_heal (tree : g.Tree) (linked : g.parentLink? id = some place) (differs : other ≠ id) :
    (g.detach id true).next? other = if g.next? other = some id then g.next? id else g.next? other := by
  have healed := tree.detach id true
  have links := tree.parentLink?_heal linked
  have apart : ∀ {lower}, g.parentLink? lower = some (id, .next) → lower ≠ id := by
    rintro _ follows rfl
    exact tree.not_climbs_child (up_of_parentLink follows) .refl
  by_cases above : g.next? other = some id
  · -- The block is taken out from below this one, so its own follower comes next.
    obtain rfl : place = (other, .next) := Option.some.inj (linked.symm.trans (tree.child?_eq_some.mp above))
    rw [if_pos above]
    ext lower
    rw [next?, next?, healed.child?_eq_some, tree.child?_eq_some, links]
    by_cases follows : g.parentLink? lower = some (id, .next)
    · simp [follows, apart follows]
    · have only : g.parentLink? lower = some (other, .next) → lower = id := fun same => tree.unshared same linked
      by_cases here : lower = id
      · simp [here, linked, differs]
      · simp [here, follows, mt only here]
  · have own : place ≠ (other, .next) := by
      rintro rfl
      exact above (tree.child?_eq_some.mpr linked)
    rw [if_neg above]
    ext lower
    rw [next?, next?, healed.child?_eq_some, tree.child?_eq_some, links]
    by_cases here : lower = id
    · simp [here, linked, own]
    · by_cases follows : g.parentLink? lower = some (id, .next)
      · simp [here, follows, own, Ne.symm differs]
      · simp [here, follows]

/-- Where a block is taken out, the statements around it keep their order. -/
theorem Tree.stack_heal (tree : g.Tree) (linked : g.parentLink? id = some place) (differs : other ≠ id) :
    (g.detach id true).stack other = (g.stack other).filter fun member => member ≠ id := by
  have healed := tree.detach id true
  have contains := (Moves.detach g id true).contains
  -- The block that is taken out is passed over, so the induction goes two blocks down there.
  induction other using tree.descends.transGen.induction with
  | h other ih =>
    cases present : g.contains other with
    | false => rw [stack_of_missing present, stack_of_missing ((contains other).trans present), List.filter_nil]
    | true =>
      have onward : ∀ {lower}, g.next? other = some lower → lower ≠ id →
          (g.detach id true).stack lower = (g.stack lower).filter fun member => member ≠ id := fun below =>
        ih _ (.single (tree.up_of_child? below))
      rw [healed.stack_eq ((contains other).trans present), tree.stack_eq present,
        List.filter_cons_of_pos (by simpa using differs), tree.next?_heal linked differs]
      congr 1
      by_cases above : g.next? other = some id
      · rw [if_pos above, above, Option.elim_some, tree.stack_eq (contains_of_parentLink linked),
          List.filter_cons_of_neg (by simp)]
        cases below : g.next? id with
        | none => rfl
        | some follower =>
          have step := tree.up_of_child? below
          refine ih follower (.head step (.single (tree.up_of_child? above))) ?_
          rintro rfl
          exact tree.not_climbs_child step .refl
      · rw [if_neg above]
        cases below : g.next? other with
        | none => rfl
        | some lower => exact onward below fun same => above (same ▸ below)

/-- No section is reordered either, and none loses more than the block. -/
theorem Tree.statementStack_heal (tree : g.Tree) (linked : g.parentLink? id = some place) (holder : BlockId)
    (socket : String) : (g.detach id true).statementStack holder socket
      = (g.statementStack holder socket).filter fun member => member ≠ id := by
  have healed := tree.detach id true
  have links := tree.parentLink?_heal linked
  have apart : ∀ {lower}, g.parentLink? lower = some (id, .next) → lower ≠ id := by
    rintro _ follows rfl
    exact tree.not_climbs_child (up_of_parentLink follows) .refl
  by_cases own : place = (holder, .socket socket)
  · -- The head of the section is taken out.
    subst own
    have heads : (g.detach id true).plugged? holder socket = g.next? id := by
      ext lower
      rw [plugged?, next?, healed.child?_eq_some, tree.child?_eq_some, links]
      by_cases follows : g.parentLink? lower = some (id, .next)
      · simp [follows, apart follows]
      · have only : g.parentLink? lower = some (holder, .socket socket) → lower = id := fun same =>
          tree.unshared same linked
        by_cases here : lower = id
        · simp [here, linked]
        · simp [here, follows, mt only here]
    rw [statementStack, statementStack, heads, plugged?, tree.child?_eq_some.mpr linked, Option.elim_some,
      tree.stack_eq (contains_of_parentLink linked), List.filter_cons_of_neg (by simp)]
    cases below : g.next? id with
    | none => rfl
    | some follower => exact tree.stack_heal linked (apart (tree.child?_eq_some.mp below))
  · have heads : (g.detach id true).plugged? holder socket = g.plugged? holder socket := by
      ext lower
      rw [plugged?, plugged?, healed.child?_eq_some, tree.child?_eq_some, links]
      by_cases here : lower = id
      · simp [here, linked, own]
      · by_cases follows : g.parentLink? lower = some (id, .next)
        · simp [here, follows, own]
        · simp [here, follows]
    rw [statementStack, statementStack, heads]
    cases held : g.plugged? holder socket with
    | none => rfl
    | some head =>
      refine tree.stack_heal linked ?_
      rintro rfl
      exact own (Option.some.inj (linked.symm.trans (tree.child?_eq_some.mp held)))

/-- A block leaves the place where it hangs and stands alone at the top. The statement below it moves up into
the place, the statements around it keep their order, and no other link is different. -/
structure ClosesUp (g g' : Graph) (id : BlockId) : Prop where
  alone : g'.parentLink? id = none ∧ g'.stack id = [id]
  link : ∀ other, other ≠ id → g'.parentLink? other
    = if g.parentLink? other = some (id, .next) then g.parentLink? id else g.parentLink? other
  stack : ∀ other, other ≠ id → g'.stack other = (g.stack other).filter fun member => member ≠ id
  sections : ∀ holder socket, g'.statementStack holder socket
    = (g.statementStack holder socket).filter fun member => member ≠ id

/-- Only where the blocks stand matters. -/
theorem Tree.closesUp (tree : g.Tree) (tree' : g'.Tree) (hangs : g.parent? id ≠ none)
    (shape : SameShape (g.detach id true) g') : ClosesUp g g' id := by
  obtain ⟨parent, up⟩ := Option.ne_none_iff_exists'.mp hangs
  obtain ⟨hook, linked⟩ := parent?_eq_some.mp up
  have healed := tree.detach id true
  have links := tree.parentLink?_heal linked
  have top : g'.parentLink? id = none := by rw [shape.links, links, if_pos rfl]
  refine ⟨⟨top, ?_⟩, fun other differs => ?_, fun other differs => ?_, fun holder socket => ?_⟩
  · have present : g'.contains id = true := by
      rw [shape.contains, (Moves.detach g id true).contains]
      exact contains_of_parentLink linked
    have last : g'.next? id = none := tree'.child?_eq_none.mpr fun lower => by
      rw [shape.links, links]
      split
      · nofun
      · split
        · rw [← linked]
          exact fun same => tree.not_climbs_child (up_of_parentLink same) .refl
        · next apart => exact apart
    rw [tree'.stack_eq present, last]
    rfl
  · rw [shape.links, links, if_neg differs, linked]
  · rw [shape.stack healed tree', tree.stack_heal linked differs]
  · rw [shape.statementStack healed tree', tree.statementStack_heal linked]

/-! The check. -/

/-- The head of the stack in which a block stands is plugged into the section of the rule. -/
def StandsIn (g : Graph) (rule : PlacementRule) (id : BlockId) : Prop :=
  ∃ head holder owner, Ends g.previous? id head ∧ g.parentLink? head = some (holder, .socket rule.socket) ∧
    g.block? holder = some owner ∧ owner.kind = .componentHolder

/-- The climb of the check finds the head. -/
theorem Tree.holds_iff (tree : g.Tree) (bound : PlacementRule.ofKind? block.kind = some rule) :
    rule.holds g id = true ↔ g.StandsIn rule id := by
  obtain ⟨head, ends, same⟩ := tree.enclosingSocket_ends id
  have named : rule.holds g id = true ↔ ∃ place, g.holder? head = some place ∧ rule.names g place = true := by
    rw [PlacementRule.holds, same, Option.any_eq_true]
    rfl
  rw [named]
  constructor
  · rintro ⟨⟨holder, socket⟩, held, names⟩
    obtain ⟨rfl, owner, there, kind⟩ := PlacementRule.names_iff.mp names
    refine ⟨head, holder, owner, ends, ?_, there, kind.trans (PlacementRule.ofKind?_container bound)⟩
    unfold holder? at held
    split at held
    · next linked =>
      cases held
      exact linked
    · cases held
  · rintro ⟨head', holder, owner, ends', linked, there, kind⟩
    cases ends.unique ends'
    refine ⟨(holder, rule.socket), by simp [holder?, linked], PlacementRule.names_iff.mpr ⟨rfl, owner, there, ?_⟩⟩
    exact kind.trans (PlacementRule.ofKind?_container bound).symm

/-- No block comes or goes, and none but the marked one is different, nor that one but for its warning. -/
structure Marks (g g' : Graph) (id : BlockId) (warning : Option String) : Prop where
  ids : g'.ids = g.ids
  block : ∀ other, g'.block? other
    = if other = id then (g.block? other).map fun block => { block with warning } else g.block? other

theorem Marks.setWarning (h : g.setWarning id warning = .ok g') : Marks g g' id warning := by
  refine ⟨?_, block?_setWarning h⟩
  obtain ⟨-, rfl⟩ := setWarning_eq_ok.mp h
  exact ids_updateBlock g id _ fun _ same => same

theorem Moves.marks (moves : g.Moves g') (marks : Marks g' g'' id warning) : Marks g g'' id warning := by
  refine ⟨marks.ids.trans moves.ids, fun other => ?_⟩
  rw [marks.block, moves.blocks]

section Check

variable (tree : g.Tree) (found : g.block? id = some block)
  (bound : PlacementRule.ofKind? block.kind = some rule)
include tree found bound

theorem Tree.checkPlacement_stays (stands : g.StandsIn rule id) (clears : g.setWarning id none = .ok g') :
    g.checkPlacement id = .ok (.valid, g') := by
  have holds := (tree.holds_iff bound).mpr stands
  simp [checkPlacement, get_eq_ok.mpr found, bound, holds, clears, bind, Except.bind, pure, Except.pure]

theorem Tree.checkPlacement_leaves (astray : ¬ g.StandsIn rule id) (freed : g.unplug id true = .ok g')
    (warns : g'.setWarning id (some rule.message) = .ok g'') :
    g.checkPlacement id = .ok (.detached rule.message, g'') := by
  have holds := mt (tree.holds_iff bound).mp astray
  simp [checkPlacement, get_eq_ok.mpr found, bound, holds, freed, warns, bind, Except.bind, pure, Except.pure]

/-- A block that stands alone with the message is left as it is. -/
theorem Tree.checkPlacement_alone (top : g.parentLink? id = none) (warned : block.warning = some rule.message) :
    g.checkPlacement id = .ok (.detached rule.message, g) := by
  have free : g.unplug id true = .ok g := by
    simp [Graph.unplug, get_eq_ok.mpr found, parent?, top, bind, Except.bind, pure, Except.pure]
  refine tree.checkPlacement_leaves found bound ?_ free (tree.setWarning_same found warned)
  rintro ⟨head, holder, owner, ends, linked, -⟩
  have done : g.previous? id = none := by simp [previous?, top]
  cases ends.unique (.stop done)
  cases top.symm.trans linked

end Check

/-- Where a block stands depends on the links and on the kinds of holders. -/
theorem StandsIn.marks (stands : g.StandsIn rule id) (marks : Marks g g' other warning)
    (links : ∀ other, g'.parentLink? other = g.parentLink? other) : g'.StandsIn rule id := by
  obtain ⟨head, holder, owner, ends, linked, there, kind⟩ := stands
  have previous : g'.previous? = g.previous? := by
    funext other
    rw [previous?, previous?, links]
  obtain ⟨owner', there', kind'⟩ : ∃ owner', g'.block? holder = some owner' ∧ owner'.kind = owner.kind := by
    rw [marks.block, there]
    split
    · exact ⟨_, rfl, rfl⟩
    · exact ⟨_, rfl, rfl⟩
  exact ⟨head, holder, owner', previous ▸ ends, (links head).trans linked, there', kind'.trans kind⟩

section Placed

variable (tree : g.Tree) (found : g.block? id = some block)
  (bound : PlacementRule.ofKind? block.kind = some rule)
include tree found bound

/-- A block in its section stays there and loses its warning. -/
theorem Tree.checkPlacement_placed (stands : g.StandsIn rule id) :
    ∃ g', g.checkPlacement id = .ok (.valid, g') ∧ Marks g g' id none ∧
      (∀ other, g'.parentLink? other = g.parentLink? other) ∧ g'.pending = g.pending ∧
      g'.checkPlacement id = .ok (.valid, g') := by
  obtain ⟨cleared, clears⟩ : ∃ cleared, g.setWarning id none = .ok cleared :=
    ⟨_, setWarning_eq_ok.mpr ⟨contains_iff_block.mpr ⟨block, found⟩, rfl⟩⟩
  have marks := Marks.setWarning clears
  have links := parentLink?_setWarning clears
  have tree' := tree.setWarning clears
  have found' : cleared.block? id = some { block with warning := none } := by
    rw [marks.block, if_pos rfl, found, Option.map_some]
  have quiet : cleared.pending = g.pending := by
    obtain ⟨-, rfl⟩ := setWarning_eq_ok.mp clears
    rfl
  exact ⟨cleared, tree.checkPlacement_stays found bound stands clears, marks, links, quiet,
    tree'.checkPlacement_stays found' bound (stands.marks marks links) (tree'.setWarning_same found' rfl)⟩

/-- A block that stands elsewhere is taken out and marked. -/
theorem Tree.checkPlacement_astray (astray : ¬ g.StandsIn rule id) :
    ∃ g', g.checkPlacement id = .ok (.detached rule.message, g') ∧ Marks g g' id (some rule.message) ∧
      g'.parentLink? id = none ∧ (g.parent? id ≠ none → ClosesUp g g' id) ∧
      (g.parent? id = none → ∀ other, g'.parentLink? other = g.parentLink? other) ∧
      g'.checkPlacement id = .ok (.detached rule.message, g') := by
  have present : g.contains id = true := contains_iff_block.mpr ⟨block, found⟩
  obtain ⟨loose, freed⟩ := unplug_ok true present
  have moves := Moves.unplug freed
  obtain ⟨warned, warns⟩ : ∃ warned, loose.setWarning id (some rule.message) = .ok warned :=
    ⟨_, setWarning_eq_ok.mpr ⟨by rwa [moves.contains], rfl⟩⟩
  have marks := moves.marks (.setWarning warns)
  have links := parentLink?_setWarning warns
  have tree' := (tree.unplug freed).setWarning warns
  have found' : warned.block? id = some { block with warning := some rule.message } := by
    rw [marks.block, if_pos rfl, found, Option.map_some]
  have closes : g.parent? id ≠ none → ClosesUp g warned id := fun hangs => by
    refine tree.closesUp tree' hangs ⟨fun other => ?_, fun other => (links other).trans ?_⟩
    · rw [Bool.eq_iff_iff, contains_iff_mem, contains_iff_mem, marks.ids, (Moves.detach g id true).ids]
    · rcases unplug_cases freed with ⟨none, -⟩ | ⟨kind, parent, -, rfl⟩
      · exact absurd none hangs
      · rfl
  have stay : g.parent? id = none → ∀ other, warned.parentLink? other = g.parentLink? other := by
    intro none other
    rcases unplug_cases freed with ⟨-, rfl⟩ | ⟨kind, parent, up, -⟩
    · exact links other
    · cases none.symm.trans up
  have top : warned.parentLink? id = none := by
    by_cases hangs : g.parent? id = none
    · rw [stay hangs]
      simpa [parent?] using hangs
    · exact (closes hangs).alone.1
  exact ⟨warned, tree.checkPlacement_leaves found bound astray freed warns, marks, top, closes, stay,
    tree'.checkPlacement_alone found' bound top rfl⟩

end Placed

/-- What the check says is decided by where the block stands. A block in its section stays there and loses its
warning. Any other one is taken out with the message of its rule, and nothing else is different. A second check
says the same and changes nothing. -/
theorem Assembled.checkPlacement_enforces (reached : g.Assembled) (found : g.block? id = some block)
    (bound : PlacementRule.ofKind? block.kind = some rule) :
    ∃ placement g', g.checkPlacement id = .ok (placement, g') ∧
      (placement = .valid ↔ g.StandsIn rule id) ∧
      (placement = .valid → Marks g g' id none ∧ (∀ other, g'.parentLink? other = g.parentLink? other) ∧
        g'.pending = g.pending) ∧
      (placement ≠ .valid → placement = .detached rule.message ∧ Marks g g' id (some rule.message) ∧
        g'.parentLink? id = none ∧ (g.parent? id ≠ none → ClosesUp g g' id) ∧
        (g.parent? id = none → ∀ other, g'.parentLink? other = g.parentLink? other)) ∧
      g'.checkPlacement id = .ok (placement, g') := by
  by_cases stands : g.StandsIn rule id
  · obtain ⟨g', checked, marks, links, quiet, again⟩ := reached.tree.checkPlacement_placed found bound stands
    exact ⟨.valid, g', checked, iff_of_true rfl stands, fun _ => ⟨marks, links, quiet⟩,
      fun other => absurd rfl other, again⟩
  · obtain ⟨g', checked, marks, top, closes, stay, again⟩ := reached.tree.checkPlacement_astray found bound stands
    exact ⟨_, g', checked, iff_of_false nofun stands, nofun, fun _ => ⟨rfl, marks, top, closes, stay⟩, again⟩

/-- Between two components stands an event. The component above it stays; the event is taken out, and the other
component moves up. -/
theorem checkPlacement_enforces_between :
    let edits : List Mutation :=
      [.add .componentHolder .none, .add .component (.component {}), .add .event (.event []),
        .add .component (.component {}), .connectSocket ⟨0⟩ Socket.components ⟨1⟩, .connectNext ⟨1⟩ ⟨2⟩,
        .connectNext ⟨2⟩ ⟨3⟩]
    let g := edits.foldl Graph.mutate Graph.empty
    let message := "Events can only go in the events section of the robot or mechanism"
    (∃ rule g', g.checkPlacement ⟨1⟩ = .ok (.valid, g') ∧ g.StandsIn rule ⟨1⟩ ∧
      g'.checkPlacement ⟨1⟩ = .ok (.valid, g')) ∧
    ∃ g', g.checkPlacement ⟨2⟩ = .ok (.detached message, g') ∧
      g'.statementStack ⟨0⟩ Socket.components = [⟨1⟩, ⟨3⟩] ∧
      g'.checkPlacement ⟨2⟩ = .ok (.detached message, g') := by
  intro edits g message
  have reached : g.Assembled := Assembled.empty.foldl_mutate edits
  obtain ⟨first, here⟩ : ∃ block, g.block? ⟨1⟩ = some block := contains_iff_block.mp (by decide +kernel)
  obtain ⟨second, there⟩ : ∃ block, g.block? ⟨2⟩ = some block := contains_iff_block.mp (by decide +kernel)
  have component : first.kind = .component := by
    have kind : (g.block? ⟨1⟩).map (·.kind) = some .component := by decide +kernel
    rwa [here, Option.map_some, Option.some.injEq] at kind
  have event : second.kind = .event := by
    have kind : (g.block? ⟨2⟩).map (·.kind) = some .event := by decide +kernel
    rwa [there, Option.map_some, Option.some.injEq] at kind
  obtain ⟨own, rule⟩ : ∃ own, PlacementRule.ofKind? first.kind = some own := by
    rw [component]
    exact ⟨_, rfl⟩
  obtain ⟨other, rule'⟩ : ∃ other, PlacementRule.ofKind? second.kind = some other := by
    rw [event]
    exact ⟨_, rfl⟩
  have said : (g.checkPlacement ⟨1⟩).toOption.map (·.1) = some .valid ∧
      (g.checkPlacement ⟨2⟩).toOption.map (·.1) = some (.detached message) := by decide +kernel
  constructor
  · obtain ⟨placement, g', checked, stands, -, -, again⟩ := reached.checkPlacement_enforces here rule
    rw [checked] at said
    cases Option.some.inj said.1
    exact ⟨_, g', checked, stands.mp rfl, again⟩
  · obtain ⟨placement, g', checked, -, -, leaves, again⟩ := reached.checkPlacement_enforces there rule'
    rw [checked] at said
    cases Option.some.inj said.2
    obtain ⟨-, -, -, closes, -⟩ := leaves nofun
    refine ⟨g', checked, ?_, again⟩
    rw [(closes (by decide +kernel)).sections]
    decide +kernel

end Graph
end RobotBlocks
