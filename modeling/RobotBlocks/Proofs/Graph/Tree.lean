import Mathlib.Data.List.Perm.Subperm
import Mathlib.Logic.Relation
import Mathlib.Order.WellFounded
import RobotBlocks.Proofs.Graph.Lookup

/-! Graphs as forests. Climbing from a block leads from parent to parent; in a forest every climb
ends at a top block after fewer steps than there are blocks. -/
namespace RobotBlocks.Graph

/-- One step up, from a block to its parent. -/
def Up (g : Graph) (child parent : BlockId) : Prop := g.parent? child = some parent

/-- Climbing from the first block reaches the second one. -/
def Climbs (g : Graph) : BlockId → BlockId → Prop := Relation.ReflTransGen g.Up

/-- The invariant of every graph: ids ascend, links start where their parents offer them, no two
blocks share a link, and no climb goes on for ever. -/
structure Tree (g : Graph) : Prop where
  ascending : g.ids.Pairwise fun a b => a.number < b.number
  declared : ∀ {id link}, g.parentLink? id = some link → g.linkDeclared link = true
  unshared : ∀ {a b link}, g.parentLink? a = some link → g.parentLink? b = some link → a = b
  grounded : WellFounded fun parent child => g.Up child parent

variable {g g' : Graph} {id other parent child : BlockId} {link : Link}

theorem up_of_parentLink (h : g.parentLink? child = some (parent, link)) : g.Up child parent :=
  parent?_eq_some.mpr ⟨link, h⟩

theorem Up.exists_link (h : g.Up child parent) : ∃ link, g.parentLink? child = some (parent, link) :=
  parent?_eq_some.mp h

theorem Up.unique (h : g.Up child parent) (k : g.Up child other) : parent = other :=
  Option.some.inj (h.symm.trans k)

theorem contains_of_linkDeclared (h : g.linkDeclared (parent, link) = true) :
    g.contains parent = true := by
  cases link with
  | next => exact h
  | socket name =>
    obtain ⟨block, found, -⟩ := (Option.any_eq_true _ _).mp h
    exact contains_iff_block.mpr ⟨block, found⟩

/-- Ascending ids are distinct. -/
theorem nodup_of_ascending {ids : List BlockId} (ascending : ids.Pairwise fun a b => a.number < b.number) :
    ids.Nodup := by
  refine List.Pairwise.imp ?_ ascending
  intro a b less same
  subst same
  exact Nat.lt_irrefl _ less

/-- Which ids are there determines a list of ascending ids. -/
theorem eq_of_ascending {ids others : List BlockId}
    (ascending : ids.Pairwise fun a b => a.number < b.number)
    (ascending' : others.Pairwise fun a b => a.number < b.number)
    (same : ∀ id, id ∈ ids ↔ id ∈ others) : ids = others := by
  have perm : ids.Perm others :=
    (List.perm_ext_iff_of_nodup (nodup_of_ascending ascending) (nodup_of_ascending ascending')).mpr same
  refine perm.eq_of_pairwise (fun a b _ _ less more => ?_) ascending ascending'
  omega

namespace Tree

theorem distinct (tree : g.Tree) : g.ids.Nodup := nodup_of_ascending tree.ascending

/-- The ids of the blocks that pass a test. -/
theorem mem_filter_blocks (tree : g.Tree) {test : Block → Bool} :
    id ∈ (g.blocks.filter test).map (·.id) ↔ ∃ block, g.block? id = some block ∧ test block = true := by
  simp only [List.mem_map, List.mem_filter, blocks]
  constructor
  · rintro ⟨_, ⟨⟨node, member, rfl⟩, passes⟩, rfl⟩
    have here : g.node? node.block.id = some node := node?_of_mem tree.distinct member
    exact ⟨node.block, by simp [block?, here], passes⟩
  · rintro ⟨block, found, passes⟩
    obtain ⟨node, here, rfl⟩ := Option.map_eq_some_iff.mp found
    exact ⟨_, ⟨⟨node, node?_mem here, rfl⟩, passes⟩, node?_id here⟩

theorem filter_blocks_ascending (tree : g.Tree) (test : Block → Bool) :
    ((g.blocks.filter test).map (·.id)).Pairwise fun a b => a.number < b.number := by
  have sub : ((g.blocks.filter test).map (·.id)).Sublist (g.blocks.map (·.id)) :=
    List.filter_sublist.map _
  have ids : g.blocks.map (·.id) = g.ids := by simp [blocks, Graph.ids, Node.id]
  exact tree.ascending.sublist (ids ▸ sub)

theorem contains_parent (tree : g.Tree) (h : g.Up child parent) : g.contains parent = true := by
  obtain ⟨link, h⟩ := h.exists_link
  exact contains_of_linkDeclared (tree.declared h)

theorem contains_of_climbs (tree : g.Tree) (present : g.contains id = true)
    (h : g.Climbs id other) : g.contains other = true := by
  induction h with
  | refl => exact present
  | tail _ step _ => exact tree.contains_parent step

/-- A child is found exactly where its own link says. -/
theorem child?_eq_some (tree : g.Tree) :
    g.child? parent link = some child ↔ g.parentLink? child = some (parent, link) := by
  constructor
  · intro h
    obtain ⟨node, found, rfl⟩ := Option.map_eq_some_iff.mp h
    have own := node?_of_mem tree.distinct (List.mem_of_find?_eq_some found)
    have linked : node.parent = some (parent, link) := by simpa using List.find?_some found
    simp [parentLink?, own, linked]
  · intro h
    obtain ⟨node, found, linked⟩ := Option.bind_eq_some_iff.mp h
    have exist : (g.nodes.find? fun node => node.parent = some (parent, link)).isSome := by
      rw [List.find?_isSome]
      exact ⟨node, node?_mem found, by simp [linked]⟩
    obtain ⟨first, same⟩ := Option.isSome_iff_exists.mp exist
    have own := node?_of_mem tree.distinct (List.mem_of_find?_eq_some same)
    have firstLinked : g.parentLink? first.id = some (parent, link) := by
      simpa [parentLink?, own] using List.find?_some same
    rw [child?, same, Option.map_some, tree.unshared firstLinked h]

theorem child?_eq_none (tree : g.Tree) :
    g.child? parent link = none ↔ ∀ child, g.parentLink? child ≠ some (parent, link) := by
  rw [Option.eq_none_iff_forall_ne_some]
  exact forall_congr' fun child => not_congr tree.child?_eq_some

theorem child?_of_missing (tree : g.Tree) (missing : g.contains parent = false) :
    g.child? parent link = none := by
  refine tree.child?_eq_none.mpr fun other linked => ?_
  have present := tree.contains_parent (up_of_parentLink linked)
  simp [missing] at present

/-! Climbing. -/

theorem irrefl (tree : g.Tree) : ¬ Relation.TransGen g.Up id id := by
  intro cycle
  have below : Relation.TransGen (fun parent child => g.Up child parent) id id :=
    Relation.transGen_swap.mp cycle
  exact tree.grounded.transGen.irrefl.irrefl id below

/-- Of two blocks above a third one, one is above the other. -/
theorem climbs_total (h : g.Climbs id parent) (k : g.Climbs id other) :
    g.Climbs parent other ∨ g.Climbs other parent :=
  Relation.ReflTransGen.total_of_right_unique (fun _ _ _ a b => Up.unique a b) h k

theorem not_climbs_child (tree : g.Tree) (step : g.Up child parent) : ¬ g.Climbs parent child :=
  fun back => tree.irrefl (Relation.TransGen.head' step back)

end Tree

/-! Ancestors. -/

theorem mem_ancestorsWithin {fuel : Nat} (h : other ∈ g.ancestorsWithin fuel id) :
    Relation.TransGen g.Up id other := by
  induction fuel generalizing id with
  | zero => simp [ancestorsWithin] at h
  | succ fuel ih =>
    unfold ancestorsWithin at h
    split at h
    · next parent up =>
      rcases List.mem_cons.mp h with rfl | later
      · exact .single up
      · exact .head up (ih later)
    · simp at h

theorem Tree.ancestorsWithin_nodup (tree : g.Tree) (fuel : Nat) (id : BlockId) :
    (id :: g.ancestorsWithin fuel id).Nodup := by
  induction fuel generalizing id with
  | zero => simp [ancestorsWithin]
  | succ fuel ih =>
    refine List.nodup_cons.mpr ⟨fun cycle => tree.irrefl (mem_ancestorsWithin cycle), ?_⟩
    unfold ancestorsWithin
    split
    · exact ih _
    · exact List.nodup_nil

theorem Tree.ancestorsWithin_length (tree : g.Tree) (fuel : Nat) (present : g.contains id = true) :
    (g.ancestorsWithin fuel id).length < g.size := by
  have subset : (id :: g.ancestorsWithin fuel id) ⊆ g.ids := by
    intro x member
    rcases List.mem_cons.mp member with rfl | member
    · exact contains_iff_mem.mp present
    · exact contains_iff_mem.mp
        (tree.contains_of_climbs present (mem_ancestorsWithin member).to_reflTransGen)
  have bound := ((tree.ancestorsWithin_nodup fuel id).subperm subset).length_le
  have counted : g.ids.length = g.size := List.length_map _
  rw [List.length_cons] at bound
  omega

/-- A climb that did not use up its steps has ended, so more steps change nothing. -/
theorem ancestorsWithin_stable {fuel : Nat} (ended : (g.ancestorsWithin fuel id).length < fuel) :
    g.ancestorsWithin (fuel + 1) id = g.ancestorsWithin fuel id := by
  induction fuel generalizing id with
  | zero => simp at ended
  | succ fuel ih =>
    cases up : g.parent? id with
    | none => simp only [ancestorsWithin, up]
    | some parent =>
      simp only [ancestorsWithin, up, List.length_cons, Nat.add_lt_add_iff_right] at ended ⊢
      rw [← ih ended, ancestorsWithin]

namespace Tree

theorem contains_child (step : g.Up child parent) : g.contains child = true := by
  obtain ⟨link, linked⟩ := step.exists_link
  exact contains_of_parentLink linked

theorem ancestors_cons (tree : g.Tree) (step : g.Up child parent) :
    g.ancestors child = parent :: g.ancestors parent := by
  have stable := ancestorsWithin_stable
    (tree.ancestorsWithin_length g.size (tree.contains_parent step))
  have more := ancestorsWithin_stable
    (tree.ancestorsWithin_length g.size (contains_child step))
  have unfolded : g.ancestorsWithin (g.size + 1) child
      = parent :: g.ancestorsWithin g.size parent := by
    have up : g.parent? child = some parent := step
    simp [ancestorsWithin, up]
  rw [ancestors, ← more, unfolded, ancestors]

theorem ancestors_top (h : g.parent? id = none) : g.ancestors id = [] := by
  unfold ancestors
  cases g.size with
  | zero => rfl
  | succ fuel => simp [ancestorsWithin, h]

theorem mem_ancestors (tree : g.Tree) :
    other ∈ g.ancestors id ↔ Relation.TransGen g.Up id other := by
  constructor
  · exact mem_ancestorsWithin
  · intro h
    induction h using Relation.TransGen.head_induction_on with
    | single step => simp [tree.ancestors_cons step]
    | head step _ ih => simp [tree.ancestors_cons step, ih]

theorem isAncestorOrSelf_iff (tree : g.Tree) :
    g.isAncestorOrSelf other id = true ↔ g.Climbs id other := by
  rw [isAncestorOrSelf, Bool.or_eq_true, decide_eq_true_iff, List.contains_iff_mem,
    tree.mem_ancestors, Climbs, Relation.reflTransGen_iff_eq_or_transGen]

end Tree

/-- How many blocks are above a block. -/
def depth (g : Graph) (id : BlockId) : Nat := (g.ancestors id).length

namespace Tree

theorem depth_lt_size (tree : g.Tree) (present : g.contains id = true) : g.depth id < g.size :=
  tree.ancestorsWithin_length g.size present

theorem depth_child (tree : g.Tree) (step : g.Up child parent) :
    g.depth child = g.depth parent + 1 := by
  simp [depth, tree.ancestors_cons step]

/-- Going down ends as well: every step down uses up one of the levels that are left. -/
theorem descends (tree : g.Tree) : WellFounded g.Up := by
  refine Subrelation.wf (fun {child parent} step => ?_)
    (measure fun id => g.size - g.depth id).wf
  have deeper := tree.depth_child step
  have bound := tree.depth_lt_size (contains_child step)
  change g.size - g.depth child < g.size - g.depth parent
  omega

/-- The top block that a climb ends at. -/
theorem exists_top (tree : g.Tree) (present : g.contains id = true) :
    ∃ top, g.Climbs id top ∧ g.contains top = true ∧ g.parent? top = none := by
  induction id using tree.grounded.induction with
  | h id ih =>
    cases up : g.parent? id with
    | none => exact ⟨id, .refl, present, up⟩
    | some parent =>
      obtain ⟨top, climbs, rest⟩ := ih parent up (tree.contains_parent up)
      exact ⟨top, .head up climbs, rest⟩

theorem top_unique (h : g.Climbs id parent) (k : g.Climbs id other)
    (topParent : g.parent? parent = none) (topOther : g.parent? other = none) : parent = other := by
  have stays : ∀ {top next}, g.parent? top = none → g.Climbs top next → top = next := by
    intro top next ends climbs
    rcases Relation.ReflTransGen.cases_head climbs with same | ⟨above, step, -⟩
    · exact same
    · exact absurd (ends.symm.trans step) (by simp)
  rcases climbs_total h k with climbs | climbs
  · exact stays topParent climbs
  · exact (stays topOther climbs).symm

end Tree
end RobotBlocks.Graph
