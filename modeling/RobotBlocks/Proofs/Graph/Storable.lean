import RobotBlocks.Proofs.Graph.RoundTrip

/-! Which graphs are rebuilt from their stored form. Loading refuses an id that no other could
follow and a second block in a value socket, and nothing else that a graph can hold. -/
namespace RobotBlocks.Graph

variable {s g g' : Graph} {id child : BlockId} {block : Block}

/-- Loading accepts the block: a fresh id could follow its own, and what sits in its value sockets
has nothing below it. -/
structure Accepts (s : Graph) (id : BlockId) : Prop where
  early : id.number < BlockId.last.number
  single : ∀ block socket child, s.block? id = some block → socket ∈ block.sockets →
    socket.kind = .value → s.plugged? id socket.name = some child → s.next? child = none

section Load

variable (whole : s.Sound)
include whole

/-- A stored chain that fits into a value socket is a single block. -/
theorem next?_of_checkInput {socket : Socket} {depth : Nat} (found : s.block? id = some block)
    (declared : socket ∈ block.sockets) (value : socket.kind = .value)
    (inside : s.plugged? id socket.name = some child)
    (checked : checkInput block.cleared socket.name (s.treesWithin (depth + 1) child).length = .ok ()) :
    s.next? child = none := by
  have own : block.cleared.socket? socket.name = some socket :=
    (whole.fitted found).socket?_of_mem declared
  obtain ⟨inner, here⟩ := contains_iff_block.mp
    (contains_of_parentLink (whole.tree.child?_eq_some.mp inside))
  obtain ⟨name, kind⟩ := socket
  subst value
  unfold checkInput at checked
  rw [own] at checked
  simp only [whole.tree.treesWithin_eq depth here, List.length_cons] at checked
  cases follows : s.next? child with
  | none => rfl
  | some follower =>
    obtain ⟨other, there⟩ := contains_iff_block.mp
      (contains_of_parentLink (whole.tree.child?_eq_some.mp follows))
    simp [follows, whole.tree.treesWithin_eq depth there] at checked

theorem accepts_of_loadInputs {depth : Nat} {sockets : List Socket} (found : s.block? id = some block)
    (enough : s.size ≤ depth + 1 + s.depth id) (declared : sockets ⊆ block.sockets)
    (chains : ∀ child, s.Up child id → ∀ g g' : Graph,
      g.loadChain (s.treesWithin depth child) = .ok g' → ∀ x ∈ s.walk child, s.Accepts x)
    (h : g.loadInputs block.cleared (sockets.filterMap fun socket =>
      (s.plugged? id socket.name).map fun child => (socket.name, s.treesWithin depth child)) = .ok g') :
    (∀ x ∈ s.insides id sockets, s.Accepts x) ∧
      ∀ socket child, socket ∈ sockets → socket.kind = .value →
        s.plugged? id socket.name = some child → s.next? child = none := by
  induction sockets generalizing g with
  | nil => exact ⟨by simp [insides], by simp⟩
  | cons socket sockets ih =>
    have later : sockets ⊆ block.sockets := fun _ member => declared (List.mem_cons_of_mem _ member)
    rw [insides_cons]
    cases inside : s.plugged? id socket.name with
    | none =>
      rw [List.filterMap_cons, inside] at h
      obtain ⟨deep, single⟩ := ih later h
      refine ⟨by simpa using deep, fun other child member value plugged => ?_⟩
      rcases List.mem_cons.mp member with rfl | member
      · rw [inside] at plugged
        cases plugged
      · exact single other child member value plugged
    | some child =>
      have linked := whole.tree.child?_eq_some.mp inside
      have up := up_of_parentLink linked
      have deeper := whole.tree.depth_child up
      have bound := whole.tree.depth_lt_size (contains_of_parentLink linked)
      obtain ⟨depth, rfl⟩ := Nat.exists_eq_add_one_of_ne_zero (n := depth) (by omega)
      rw [List.filterMap_cons, inside] at h
      obtain ⟨head, tail, listed, headed⟩ := whole.tree.treesWithin_head depth
        (contains_of_parentLink linked)
      rw [Option.map_some] at h
      have stored := listed
      rw [listed] at h
      simp only [Graph.loadInputs, bind_eq_ok] at h
      obtain ⟨_, checked, chained, loaded, attached, _, rest⟩ := h
      rw [← stored] at checked loaded
      obtain ⟨deep, single⟩ := ih later rest
      constructor
      · intro x member
        rcases List.mem_append.mp member with member | member
        · exact chains child up _ _ loaded x member
        · exact deep x member
      · intro other held member value plugged
        rcases List.mem_cons.mp member with rfl | member
        · cases inside.symm.trans plugged
          exact next?_of_checkInput whole found (declared (List.mem_cons_self ..)) value inside checked
        · exact single other held member value plugged

theorem accepts_of_loadTree {depth : Nat} (found : s.block? id = some block)
    (enough : s.size ≤ depth + 1 + s.depth id)
    (chains : ∀ child, s.Up child id → ∀ g g' : Graph,
      g.loadChain (s.treesWithin depth child) = .ok g' → ∀ x ∈ s.walk child, s.Accepts x)
    (h : g.loadTree (s.treeWithin depth id block) = .ok g') :
    ∀ x ∈ id :: s.insides id block.sockets, s.Accepts x := by
  have named : block.id = id := block?_id found
  have stored := (whole.fitted found).cleared_eq (block.sockets.filterMap fun socket =>
    (s.plugged? id socket.name).map fun child => (socket.name, s.treesWithin depth child))
  rw [named] at stored
  simp only [treeWithin, Graph.loadTree, stored, bind_eq_ok] at h
  obtain ⟨placed, inserted, loaded⟩ := h
  obtain ⟨-, early, -⟩ := insertBlock_eq_ok.mp inserted
  have early : id.number < BlockId.last.number := named ▸ early
  obtain ⟨deep, single⟩ :=
    accepts_of_loadInputs whole found enough (List.Subset.refl _) chains loaded
  intro x member
  rcases List.mem_cons.mp member with rfl | member
  · refine ⟨early, fun own socket child here declared value plugged => ?_⟩
    cases found.symm.trans here
    exact single socket child declared value plugged
  · exact deep x member

theorem accepts_of_load (depth : Nat) (present : s.contains id = true)
    (enough : s.size ≤ depth + s.depth id) :
    (∀ g g' : Graph, g.loadChain (s.treesWithin depth id) = .ok g' → ∀ x ∈ s.walk id, s.Accepts x) ∧
    ∀ (g g' : Graph) (above : BlockId), g.loadBelow above (s.treesWithin depth id) = .ok g' →
      ∀ x ∈ s.walk id, s.Accepts x := by
  induction id using whole.tree.descends.induction generalizing depth with
  | h id ih =>
    obtain ⟨block, found⟩ := contains_iff_block.mp present
    have bound := whole.tree.depth_lt_size present
    obtain ⟨depth, rfl⟩ := Nat.exists_eq_add_one_of_ne_zero (n := depth) (by omega)
    have listed := whole.tree.treesWithin_eq depth found
    have chains : ∀ child, s.Up child id → ∀ g g' : Graph,
        g.loadChain (s.treesWithin depth child) = .ok g' → ∀ x ∈ s.walk child, s.Accepts x := by
      intro child up g g' loaded
      have deeper := whole.tree.depth_child up
      exact (ih child up depth (Tree.contains_child up) (by omega)).1 g g' loaded
    have below : ∀ g g' : Graph, g.loadBelow id ((s.next? id).elim [] (s.treesWithin (depth + 1))) = .ok g' →
        ∀ x ∈ (s.next? id).elim [] s.walk, s.Accepts x := by
      intro g g' loaded
      cases follows : s.next? id with
      | none => exact fun _ member => nomatch member
      | some follower =>
        have up := up_of_parentLink (whole.tree.child?_eq_some.mp follows)
        have deeper := whole.tree.depth_child up
        rw [follows] at loaded
        exact (ih follower up (depth + 1) (Tree.contains_child up) (by omega)).2 g g' id loaded
    rw [whole.tree.walk_eq_insides found, listed]
    constructor
    · intro g g' loaded x member
      simp only [Graph.loadChain, bind_eq_ok] at loaded
      obtain ⟨first, ran, rest⟩ := loaded
      rcases List.mem_append.mp member with member | member
      · exact accepts_of_loadTree whole found enough chains ran x member
      · exact below first g' rest x member
    · intro g g' above loaded x member
      simp only [Graph.loadBelow, bind_eq_ok] at loaded
      obtain ⟨first, ran, hung, -, rest⟩ := loaded
      rcases List.mem_append.mp member with member | member
      · exact accepts_of_loadTree whole found enough chains ran x member
      · exact below hung g' rest x member

theorem accepts_of_ofForest (h : Graph.ofForest s.toForest = .ok g) {id : BlockId}
    (present : s.contains id = true) : s.Accepts id := by
  have tops : ∀ (tops : List BlockId) (before after : Graph),
      (∀ top ∈ tops, s.contains top = true) →
      (tops.map (s.treesWithin s.size)).foldlM Graph.loadChain before = .ok after →
      ∀ x ∈ tops.flatMap s.walk, s.Accepts x := by
    intro tops
    induction tops with
    | nil => exact fun _ _ _ _ _ member => nomatch member
    | cons top tops ih =>
      intro before after known loaded x member
      simp only [List.map_cons, List.foldlM_cons, bind_eq_ok] at loaded
      obtain ⟨first, ran, rest⟩ := loaded
      rw [List.flatMap_cons] at member
      rcases List.mem_append.mp member with member | member
      · exact (accepts_of_load whole s.size (known top (List.mem_cons_self ..))
          (Nat.le_add_right ..)).1 before first ran x member
      · exact ih first after (fun other later => known other (List.mem_cons_of_mem _ later)) rest x member
  apply tops s.topBlocks empty g (fun top member => (whole.tree.mem_topBlocks.mp member).1) h id
  exact (whole.tree.walkAll_perm whole.fitted).mem_iff.mpr (contains_iff_mem.mp present)

/-- A graph is rebuilt from its stored form exactly when every id has a successor and no block in a
value socket has another one below it. -/
theorem Sound.loads_iff :
    (∃ g, Graph.ofForest s.toForest = .ok g) ↔
      s.SingleValues ∧ ∀ id, s.contains id = true → id.number < BlockId.last.number := by
  constructor
  · rintro ⟨g, loaded⟩
    have accepts : ∀ {id}, s.contains id = true → s.Accepts id := accepts_of_ofForest whole loaded
    refine ⟨?_, fun id present => (accepts present).early⟩
    intro parent child name owner linked found socket
    have member := List.mem_of_find?_eq_some socket
    exact (accepts (contains_iff_block.mpr ⟨owner, found⟩)).single owner _ child found member rfl
      (whole.tree.child?_eq_some.mpr linked)
  · rintro ⟨single, early⟩
    obtain ⟨g, loaded, -⟩ := Sound.copy_of_toForest whole single early
    exact ⟨g, loaded⟩

/-- What is rebuilt from the stored form of a graph is its mirror image. -/
theorem Sound.mirrors_ofForest {g : Graph} (loaded : Graph.ofForest s.toForest = .ok g) :
    s.Mirrors g ∧ g.Sound := by
  obtain ⟨single, early⟩ := (Sound.loads_iff whole).mp ⟨g, loaded⟩
  obtain ⟨same, again, copy⟩ := Sound.copy_of_toForest whole single early
  obtain rfl : g = same := Except.ok.inj (loaded.symm.trans again)
  exact ⟨copy.mirrors whole, copy.sound⟩

end Load
end RobotBlocks.Graph
