import RobotBlocks.Proofs.Graph.History
import RobotBlocks.Proofs.Graph.Sections

/-! Deleting a block. The block is made loose and then goes with all that hangs from it, so what is lost is
decided by what loosening leaves below it: its sockets, and the statements after it unless they have moved
up. -/
namespace RobotBlocks.Graph

variable {g g' : Graph} {id other parent child : BlockId}

theorem parentLink?_foldl_removeNode (tree : g.Tree) (doomed : List BlockId) {link : BlockId × Link} :
    (doomed.foldl removeNode g).parentLink? id = some link ↔
      id ∉ doomed ∧ link.1 ∉ doomed ∧ g.parentLink? id = some link := by
  induction doomed generalizing g with
  | nil => simp
  | cons first doomed ih =>
    rw [List.foldl_cons, ih (tree.removeNode first)]
    have step : (g.removeNode first).parentLink? id = some link ↔
        id ≠ first ∧ link.1 ≠ first ∧ g.parentLink? id = some link := by
      cases present : g.contains first with
      | true => exact parentLink?_removeNode present
      | false =>
        -- A block that is not there has no links to lose.
        rw [removeNode_of_missing present]
        refine ⟨fun linked => ⟨?_, ?_, linked⟩, fun h => h.2.2⟩
        · rintro rfl
          simp [contains_of_parentLink linked] at present
        · rintro same
          obtain ⟨parent, hook⟩ := link
          have above := tree.contains_parent (up_of_parentLink linked)
          rw [show parent = first from same, present] at above
          cases above
    rw [step, List.mem_cons, List.mem_cons]
    constructor
    · rintro ⟨outside, above, differs, apart, linked⟩
      exact ⟨fun h => h.elim differs outside, fun h => h.elim apart above, linked⟩
    · rintro ⟨outside, above, linked⟩
      exact ⟨fun h => outside (.inr h), fun h => above (.inr h), fun h => outside (.inl h),
        fun h => above (.inl h), linked⟩

/-- A block is gone with all that hung from it, and the rest is as it was. -/
structure Cleared (g : Graph) (id : BlockId) (g' : Graph) : Prop where
  sound : g'.Sound
  gone : ∀ {other}, g.Climbs other id → g'.block? other = none
  block : ∀ {other}, ¬ g.Climbs other id → g'.block? other = g.block? other
  link : ∀ {other}, ¬ g.Climbs other id → g'.parentLink? other = g.parentLink? other

/-- What is deleted is what hangs from the block once it is loose, and all else stays. -/
theorem Tree.deleteBlock_ok (tree : g.Tree) (present : g.contains id = true) (heal : Bool) :
    ∃ g', g.deleteBlock id heal = .ok ((g.detach id heal).walk id, g') ∧
      (∀ {other}, (g.detach id heal).Climbs other id → g'.block? other = none) ∧
      (∀ {other}, ¬ (g.detach id heal).Climbs other id → g'.block? other = (g.detach id heal).block? other) ∧
      ∀ {other}, ¬ (g.detach id heal).Climbs other id →
        g'.parentLink? other = (g.detach id heal).parentLink? other := by
  have tree := tree.detach id heal
  have there : (g.detach id heal).contains id = true := by rwa [(Moves.detach g id heal).contains]
  have doomed : ∀ {other}, other ∈ (g.detach id heal).walk id ↔ (g.detach id heal).Climbs other id :=
    tree.mem_walk there
  have deleted : g.deleteBlock id heal = .ok ((g.detach id heal).walk id, _) :=
    deleteBlock_eq_ok.mpr ⟨present, rfl, rfl⟩
  refine ⟨_, deleted, fun {other} below => ?_, fun {other} apart => ?_, fun {other} apart => ?_⟩
  · rw [block?_foldl_removeNode, if_pos (doomed.mpr below)]
  · rw [block?_foldl_removeNode, if_neg fun member => apart (doomed.mp member)]
  · ext link
    rw [parentLink?_foldl_removeNode tree, doomed, doomed]
    refine ⟨fun h => h.2.2, fun linked => ⟨apart, fun above => apart ?_, linked⟩⟩
    obtain ⟨parent, hook⟩ := link
    exact .head (up_of_parentLink linked) above

theorem Sound.deleteBlock_ok (sound : g.Sound) (present : g.contains id = true) (heal : Bool) :
    ∃ g', g.deleteBlock id heal = .ok ((g.detach id heal).walk id, g') ∧
      Cleared (g.detach id heal) id g' := by
  obtain ⟨g', deleted, gone, block, link⟩ := sound.tree.deleteBlock_ok present heal
  exact ⟨g', deleted, sound.deleteBlock deleted, gone, block, link⟩

theorem Cleared.climbs_iff (cleared : Cleared g id g') (present : g.contains id = true) :
    g.Climbs other id ↔ g.contains other = true ∧ g'.contains other = false := by
  constructor
  · intro below
    refine ⟨?_, ?_⟩
    · rcases Relation.ReflTransGen.cases_head below with rfl | ⟨_, step, -⟩
      · exact present
      · exact Tree.contains_child step
    · rw [← Bool.not_eq_true, contains_iff_block]
      rintro ⟨block, found⟩
      cases (cleared.gone below).symm.trans found
  · rintro ⟨there, missing⟩
    by_contra apart
    obtain ⟨block, found⟩ := contains_iff_block.mp there
    have kept := contains_iff_block.mpr ⟨block, (cleared.block apart).trans found⟩
    cases missing.symm.trans kept

/-! What a block holds. -/

/-- Hangs from a socket of the block, or from something that does. -/
inductive Nested (g : Graph) (id : BlockId) : BlockId → Prop where
  | plugged {child : BlockId} {socket : String} (linked : g.parentLink? child = some (id, .socket socket)) :
    Nested g id child
  | deeper {child parent : BlockId} (up : g.Up child parent) (inside : Nested g id parent) : Nested g id child

theorem Nested.exists_child (nested : Nested g id other) :
    ∃ child socket, g.parentLink? child = some (id, .socket socket) ∧ g.Climbs other child := by
  induction nested with
  | plugged linked => exact ⟨_, _, linked, .refl⟩
  | deeper up inside ih =>
    obtain ⟨child, socket, linked, below⟩ := ih
    exact ⟨child, socket, linked, .head up below⟩

namespace Tree

variable (tree : g.Tree)
include tree

theorem not_nested_of_climbs (above : g.Climbs id other) : ¬ g.Nested id other := by
  intro nested
  obtain ⟨child, socket, linked, below⟩ := nested.exists_child
  exact tree.not_climbs_child (up_of_parentLink linked) (above.trans below)

/-- What follows a block is not inside it. -/
theorem not_nested_of_follows (follows : g.parentLink? child = some (id, .next)) (below : g.Climbs other child) :
    ¬ g.Nested id other := by
  intro nested
  obtain ⟨inner, socket, linked, inside⟩ := nested.exists_child
  cases tree.siblings_apart (up_of_parentLink linked) (up_of_parentLink follows) inside below
  cases linked.symm.trans follows

end Tree

/-! Healing. -/

/-- A block is gone with what was inside it, what followed it has its place, and the rest is as it was. -/
structure Excised (g : Graph) (id : BlockId) (g' : Graph) : Prop where
  gone : ∀ {other}, other = id ∨ g.Nested id other → g'.block? other = none
  block : ∀ {other}, other ≠ id → ¬ g.Nested id other → g'.block? other = g.block? other
  link : ∀ {other}, other ≠ id → ¬ g.Nested id other → g'.parentLink? other =
    if g.parentLink? other = some (id, .next) then g.parentLink? id else g.parentLink? other

/-- What followed the block follows on in the same order. -/
theorem Excised.stack_follower {follower : BlockId} (excised : Excised g id g') (tree : g.Tree) (tree' : g'.Tree)
    (below : g.next? id = some follower) : g'.stack follower = g.stack follower := by
  have follows := tree.child?_eq_some.mp below
  have step := up_of_parentLink follows
  have outside : ∀ {other}, g.Climbs other follower → other ≠ id ∧ ¬ g.Nested id other := fun below =>
    ⟨fun same => tree.not_climbs_child step (same ▸ below), tree.not_nested_of_follows follows below⟩
  refine tree.stack_congr tree' (contains_of_parentLink follows) ?_ fun above member => ?_
  · obtain ⟨own, found⟩ := contains_iff_block.mp (contains_of_parentLink follows)
    obtain ⟨differs, apart⟩ := outside .refl
    exact contains_iff_block.mpr ⟨own, (excised.block differs apart).trans found⟩
  · have climbs := tree.climbs_of_mem_stack (contains_of_parentLink follows) member
    ext lower
    rw [next?, next?, tree'.child?_eq_some, tree.child?_eq_some]
    constructor
    · intro linked
      have survives : lower ≠ id ∧ ¬ g.Nested id lower := by
        rw [← not_or]
        intro inside
        obtain ⟨own, found⟩ := contains_iff_block.mp (contains_of_parentLink linked)
        cases (excised.gone inside).symm.trans found
      rw [excised.link survives.1 survives.2] at linked
      split at linked
      · exact absurd (climbs.tail step) (tree.not_climbs_child (up_of_parentLink linked))
      · exact linked
    · intro linked
      obtain ⟨differs, apart⟩ := outside (.head (up_of_parentLink linked) climbs)
      have later : g.parentLink? lower ≠ some (id, .next) := by
        intro follows
        cases linked.symm.trans follows
        exact tree.not_climbs_child step climbs
      rw [excised.link differs apart, if_neg later, linked]

section Closes

variable (tree : g.Tree) (closes : g.parent? id ≠ none ∨ g.next? id = none)
include tree closes

/-- A stack closes up where something is above or nothing is below. -/
theorem Tree.parentLink?_closed (other : BlockId) :
    (g.detach id true).parentLink? other = if other = id then none
      else if g.parentLink? other = some (id, .next) then g.parentLink? id else g.parentLink? other := by
  cases linked : g.parentLink? id with
  | some place => exact tree.parentLink?_heal linked other
  | none =>
    have last : g.next? id = none := closes.resolve_left (not_not.mpr (by simp [parent?, linked]))
    have alone := tree.child?_eq_none.mp last other
    have same : g.detach id true = g := by rw [Graph.detach, linked]
    rw [same, if_neg alone]
    split
    · next here => exact here ▸ linked
    · rfl

theorem Tree.climbs_closed : (g.detach id true).Climbs other id ↔ other = id ∨ g.Nested id other := by
  have links := tree.parentLink?_closed closes
  constructor
  · intro below
    induction below using Relation.ReflTransGen.head_induction_on with
    | refl => exact .inl rfl
    | @head child parent step _ ih =>
      right
      obtain ⟨hook, linked⟩ := step.exists_link
      rw [links] at linked
      split at linked
      · cases linked
      · split at linked
        · -- A follower hangs from what was above the block, and nothing above the block is inside it.
          have above := up_of_parentLink linked
          rcases ih with rfl | nested
          · exact absurd .refl (tree.not_climbs_child above)
          · exact absurd nested (tree.not_nested_of_climbs (.single above))
        · next apart =>
          rcases ih with rfl | nested
          · cases hook with
            | next => exact absurd linked apart
            | socket name => exact .plugged linked
          · exact .deeper (up_of_parentLink linked) nested
  · rintro (rfl | nested)
    · exact .refl
    · have stays : ∀ {child link}, g.parentLink? child = some link → link ≠ (id, .next) → g.Nested id child →
          (g.detach id true).parentLink? child = some link := by
        intro child link linked apart nested
        have differs : child ≠ id := fun same => tree.not_nested_of_climbs .refl (same ▸ nested)
        rw [links, if_neg differs, if_neg fun follows => apart (Option.some.inj (linked.symm.trans follows)), linked]
      induction nested with
      | plugged linked => exact .single (up_of_parentLink (stays linked nofun (.plugged linked)))
      | @deeper child parent up inside ih =>
        obtain ⟨hook, linked⟩ := up.exists_link
        have apart : (parent, hook) ≠ (id, .next) := by
          intro same
          cases same
          exact tree.not_nested_of_climbs .refl inside
        exact .head (up_of_parentLink (stays linked apart (.deeper up inside))) ih

theorem Cleared.excised (cleared : Cleared (g.detach id true) id g') : Excised g id g' := by
  have climbs : ∀ {other}, (g.detach id true).Climbs other id ↔ other = id ∨ g.Nested id other :=
    tree.climbs_closed closes
  have kept : ∀ {other}, other ≠ id → ¬ g.Nested id other → ¬ (g.detach id true).Climbs other id :=
    fun differs outside below => (climbs.mp below).elim differs outside
  refine ⟨fun inside => cleared.gone (climbs.mpr inside), fun differs outside => ?_, fun differs outside => ?_⟩
  · exact (cleared.block (kept differs outside)).trans ((Moves.detach g id true).blocks _)
  · rw [cleared.link (kept differs outside), tree.parentLink?_closed closes, if_neg differs]

end Closes

/-- Deleting with healing takes a block out of its stack, unless the block stands on top: a top block takes
the statements after it along. -/
theorem Reachable.deleteBlock_heal (reached : g.Reachable) (present : g.contains id = true) :
    ∃ removed g', g.deleteBlock id true = .ok (removed, g') ∧ removed.Nodup ∧
      (∀ other, other ∈ removed ↔ g.contains other = true ∧ g'.contains other = false) ∧
      (Excised g id g' ↔ g.parent? id ≠ none ∨ g.next? id = none) ∧
      (∀ follower, g.parent? id ≠ none → g.next? id = some follower → g'.stack follower = g.stack follower) ∧
      (g.parent? id = none → Cleared g id g') := by
  have sound := reached.sound
  have healed := sound.detach id true
  have there : (g.detach id true).contains id = true := by rwa [(Moves.detach g id true).contains]
  obtain ⟨g', deleted, cleared⟩ := sound.deleteBlock_ok present true
  have top : g.parent? id = none → Cleared g id g' := fun above => by
    have same : g.detach id true = g := by rw [Graph.detach, Option.map_eq_none_iff.mp above]
    exact same ▸ cleared
  have heals : g.parent? id ≠ none ∨ g.next? id = none → Excised g id g' :=
    fun closes => cleared.excised sound.tree closes
  refine ⟨_, g', deleted, healed.tree.walk_nodup healed.fitted there, fun other => ?_, ⟨fun excised => ?_, heals⟩,
    fun follower above below => (heals (.inl above)).stack_follower sound.tree cleared.sound.tree below, top⟩
  · rw [healed.tree.mem_walk there, cleared.climbs_iff there, (Moves.detach g id true).contains]
  · -- A follower of a top block would have to stay, and it goes.
    by_contra followed
    obtain ⟨above, below⟩ := not_or.mp followed
    obtain ⟨follower, below⟩ := Option.ne_none_iff_exists'.mp below
    have follows := sound.tree.child?_eq_some.mp below
    have step := up_of_parentLink follows
    obtain ⟨own, found⟩ := contains_iff_block.mp (contains_of_parentLink follows)
    have kept := excised.block (fun same => sound.tree.not_climbs_child step (same ▸ .refl))
      (sound.tree.not_nested_of_follows follows .refl)
    cases ((top (not_not.mp above)).gone (.single step)).symm.trans (kept.trans found)

/-- The second of two calls goes with the first one. -/
theorem deleteBlock_heal_two_calls :
    let edits : List Mutation :=
      [.add .methodCall (.call {}), .add .methodCall (.call {}), .connectNext ⟨0⟩ ⟨1⟩]
    ∃ removed g', (edits.foldl Graph.mutate Graph.empty).deleteBlock ⟨0⟩ true = .ok (removed, g') ∧
      ¬ Excised (edits.foldl Graph.mutate Graph.empty) ⟨0⟩ g' ∧ ⟨1⟩ ∈ removed := by
  intro edits
  have reached : (edits.foldl Graph.mutate Graph.empty).Reachable := Reachable.empty.foldl_mutate edits
  have top : (edits.foldl Graph.mutate Graph.empty).parent? ⟨0⟩ = none := by decide +kernel
  have present : (edits.foldl Graph.mutate Graph.empty).contains ⟨0⟩ = true := by decide +kernel
  obtain ⟨removed, g', deleted, -, lost, excised, -, cleared⟩ := reached.deleteBlock_heal present
  have up : (edits.foldl Graph.mutate Graph.empty).Up ⟨1⟩ ⟨0⟩ := by
    change _ = _
    decide +kernel
  refine ⟨removed, g', deleted, fun whole => ?_, ?_⟩
  · rcases excised.mp whole with above | below
    · exact above top
    · exact absurd below (by decide +kernel)
  · exact (lost ⟨1⟩).mpr (((cleared top).climbs_iff present).mp (.single up))

end RobotBlocks.Graph
