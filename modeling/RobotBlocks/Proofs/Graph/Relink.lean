import RobotBlocks.Proofs.Graph.Tree

/-! Moving blocks keeps a forest a forest. Every move loosens links or hangs a block below one
that is not itself below it. -/
namespace RobotBlocks.Graph

variable {g g' : Graph} {id other parent child : BlockId} {link : Link} {heal : Bool}

/-- A graph with the same ids and links whose sockets still hold what they held. -/
theorem Tree.transport (tree : g.Tree) (ids : g'.ids = g.ids)
    (links : ∀ id, g'.parentLink? id = g.parentLink? id)
    (offered : ∀ {id link}, g.parentLink? id = some link → g'.linkDeclared link = true) :
    g'.Tree where
  ascending := ids ▸ tree.ascending
  declared h := offered (by rwa [links] at h)
  unshared h k := tree.unshared (by rwa [links] at h) (by rwa [links] at k)
  grounded := by
    have same : g'.Up = g.Up := by
      funext child parent
      simp only [Up, parent?, links]
    exact same ▸ tree.grounded

theorem linkDeclared_congr (blocks : ∀ id, g'.block? id = g.block? id) (link : BlockId × Link) :
    g'.linkDeclared link = g.linkDeclared link := by
  obtain ⟨parent, link⟩ := link
  cases link with
  | next =>
    rw [Bool.eq_iff_iff]
    exact contains_iff_block.trans (blocks parent ▸ contains_iff_block.symm)
  | socket name => simp only [linkDeclared, blocks]

theorem Tree.congr (tree : g.Tree) (ids : g'.ids = g.ids)
    (blocks : ∀ id, g'.block? id = g.block? id)
    (links : ∀ id, g'.parentLink? id = g.parentLink? id) : g'.Tree :=
  tree.transport ids links fun h => linkDeclared_congr blocks _ ▸ tree.declared h

/-- A climb depends on the parents of the blocks that it passes and on nothing else. -/
theorem climbs_congr (agree : ∀ passed, g.Climbs id passed → g'.parent? passed = g.parent? passed) :
    g'.Climbs id other ↔ g.Climbs id other := by
  constructor
  · intro climbs
    induction climbs with
    | refl => exact .refl
    | tail _ step ih => exact ih.tail ((agree _ ih).symm.trans step)
  · intro climbs
    induction climbs with
    | refl => exact .refl
    | tail before step ih => exact ih.tail ((agree _ before).trans step)

/-! Loosening. -/

theorem parentLink?_loosen (g : Graph) (id asked : BlockId) :
    (g.setParent id none).parentLink? asked = if asked = id then none else g.parentLink? asked := by
  rw [parentLink?_setParent]
  by_cases here : asked = id
  · subst here
    cases present : g.contains asked with
    | true => simp
    | false => simp [parentLink?_of_missing present]
  · simp [here]

theorem up_of_loosen (h : (g.setParent id none).Up child parent) : g.Up child parent := by
  obtain ⟨link, linked⟩ := h.exists_link
  rw [parentLink?_loosen] at linked
  split at linked
  · simp at linked
  · exact up_of_parentLink linked

theorem climbs_of_loosen (h : (g.setParent id none).Climbs child parent) : g.Climbs child parent :=
  Relation.ReflTransGen.mono (fun _ _ step => up_of_loosen step) _ _ h

theorem Tree.loosen (tree : g.Tree) (id : BlockId) : (g.setParent id none).Tree where
  ascending := by rw [ids_setParent]; exact tree.ascending
  declared h := by
    rw [linkDeclared_congr (block?_setParent g id none)]
    rw [parentLink?_loosen] at h
    split at h
    · simp at h
    · exact tree.declared h
  unshared h k := by
    rw [parentLink?_loosen] at h k
    split at h
    · simp at h
    · split at k
      · simp at k
      · exact tree.unshared h k
  grounded := Subrelation.wf up_of_loosen tree.grounded

/-! Hanging. -/

theorem parentLink?_link (present : g.contains child = true) (asked : BlockId) :
    (g.link parent link child).parentLink? asked
      = if asked = child then some (parent, link) else g.parentLink? asked := by
  rw [Graph.link, parentLink?_setParent]
  by_cases here : asked = child <;> simp [here, present]

theorem parent?_link (present : g.contains child = true) (asked : BlockId) :
    (g.link parent link child).parent? asked
      = if asked = child then some parent else g.parent? asked := by
  rw [parent?, parentLink?_link present]
  split <;> rfl

/-- What a block climbs to changes only if it climbs through the moved one. -/
theorem climbs_link_of_not_climbs (present : g.contains child = true)
    (away : ¬ g.Climbs id child) :
    (g.link parent link child).Climbs id other ↔ g.Climbs id other := by
  apply climbs_congr
  intro passed climbs
  rw [parent?_link present, if_neg]
  rintro rfl
  exact away climbs

theorem Tree.hang (tree : g.Tree) (present : g.contains child = true)
    (offered : g.linkDeclared (parent, link) = true)
    (free : ∀ other, other ≠ child → g.parentLink? other ≠ some (parent, link))
    (below : ¬ g.Climbs parent child) : (g.link parent link child).Tree where
  ascending := by rw [Graph.link, ids_setParent]; exact tree.ascending
  declared h := by
    rw [Graph.link, linkDeclared_congr (block?_setParent g child _)]
    rw [parentLink?_link present] at h
    split at h
    · exact Option.some.inj h ▸ offered
    · exact tree.declared h
  unshared {a b taken} h k := by
    rw [parentLink?_link present] at h k
    by_cases ha : a = child <;> by_cases hb : b = child
    · exact ha.trans hb.symm
    · simp only [ha, hb, if_true, if_false] at h k
      exact (free b hb (k.trans h.symm)).elim
    · simp only [ha, hb, if_true, if_false] at h k
      exact (free a ha (h.trans k.symm)).elim
    · simp only [ha, hb, if_false] at h k
      exact tree.unshared h k
  grounded := by
    have step : ∀ {x y}, x ≠ child → (g.link parent link child).Up x y → g.Up x y := by
      intro x y away up
      unfold Up at up
      rwa [parent?_link present, if_neg away] at up
    -- Blocks that do not climb to the moved one keep their climbs; the new parent is one of them.
    have apart : ∀ x, ¬ g.Climbs x child →
        Acc (fun above below => (g.link parent link child).Up below above) x := by
      intro x
      induction x using tree.grounded.induction with
      | h x ih =>
        intro away
        refine ⟨x, fun y up => ?_⟩
        have old := step (fun same => away (same ▸ .refl)) up
        exact ih y old fun climbs => away (.head old climbs)
    have moved : Acc (fun above below => (g.link parent link child).Up below above) child := by
      refine ⟨child, fun y up => ?_⟩
      unfold Up at up
      rw [parent?_link present, if_pos rfl] at up
      exact Option.some.inj up ▸ apart parent below
    refine ⟨fun x => ?_⟩
    induction x using tree.grounded.induction with
    | h x ih =>
      by_cases here : x = child
      · exact here ▸ moved
      · exact ⟨x, fun y up => ih y (step here up)⟩

end RobotBlocks.Graph
