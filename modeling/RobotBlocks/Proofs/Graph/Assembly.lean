import RobotBlocks.Proofs.Graph.Loading

/-! Rebuilding in one pass. A forest that can be assembled is loaded, and the loader gives the same
graph: the same nodes in the same order, the same counter and the same queue. -/
namespace RobotBlocks

namespace BlockTree

variable {tree : BlockTree}

theorem fits_of_treeFits (fits : Graph.treeFits tree = true) : tree.Fits := by
  obtain ⟨id, kind, fields, extra, inputs⟩ := tree
  simp only [Graph.treeFits, Bool.and_eq_true, List.all_eq_true] at fits
  intro name chain member
  have checked := fits.2 (name, chain) member
  cases taken : Graph.checkInput (node id kind fields extra inputs).block name chain.length with
  | error error => simp [taken, Except.isOk, Except.toBool] at checked
  | ok _ => exact Graph.checkInput_eq_ok.mp taken

/-! Distinct labels in all trees of a chain are distinct labels in the chain. -/

mutual

theorem distinct_of_treeFits (parent : Option (BlockId × Link)) (below : List BlockTree) :
    ∀ tree : BlockTree, (∀ spot ∈ tree.spots parent below, Graph.treeFits spot.tree = true) →
      tree.Distinct
  | node id kind fields extra inputs, fits => by
    rw [spots, List.forall_mem_cons] at fits
    obtain ⟨own, inside⟩ := fits
    simp only [Graph.treeFits, Bool.and_eq_true, decide_eq_true_iff] at own
    exact ⟨own.1.1, own.1.2, distinctInputs_of_treeFits id inputs inside⟩

theorem distinctInputs_of_treeFits (owner : BlockId) :
    ∀ inputs : List (String × List BlockTree),
      (∀ spot ∈ inputSpots owner inputs, Graph.treeFits spot.tree = true) → DistinctInputs inputs
  | [], _ => trivial
  | (name, chain) :: inputs, fits => by
    rw [inputSpots, List.forall_mem_append] at fits
    exact ⟨distinctChain_of_treeFits _ chain fits.1, distinctInputs_of_treeFits owner inputs fits.2⟩

theorem distinctChain_of_treeFits (parent : Option (BlockId × Link)) :
    ∀ chain : List BlockTree,
      (∀ spot ∈ chainSpots parent chain, Graph.treeFits spot.tree = true) → DistinctChain chain
  | [], _ => trivial
  | tree :: below, fits => by
    rw [chainSpots, List.forall_mem_append] at fits
    exact ⟨distinct_of_treeFits parent below tree fits.1, distinctChain_of_treeFits _ below fits.2⟩

end

end BlockTree

namespace Graph

variable {g : Graph} {forest : Forest} {floor next : Nat} {ids : List BlockId}

theorem numberAbove?_eq_some (above : numberAbove? floor ids = some next) :
    (∀ id ∈ ids, floor ≤ id.number ∧ id.number < BlockId.last.number) ∧
      ids.Pairwise (fun a b => a.number < b.number) ∧ next = max floor (ceiling ids) := by
  induction ids generalizing floor with
  | nil =>
    simp only [numberAbove?, Option.some.injEq] at above
    exact ⟨nofun, .nil, by simp [ceiling, above]⟩
  | cons id ids ih =>
    rw [numberAbove?] at above
    split at above
    · next within =>
      obtain ⟨later, ascending, rfl⟩ := ih above
      refine ⟨?_, .cons (fun other member => (later other member).1) ascending, ?_⟩
      · intro other member
        rcases List.mem_cons.mp member with rfl | member
        · exact within
        · have beyond := later other member
          exact ⟨by omega, beyond.2⟩
      · simp only [ceiling]
        omega
    · cases above

/-- Loading queues behind the events that wait and takes none from the front. -/
theorem front_ofForest (loaded : ofForest forest = .ok g) : g.pending.front = [] := by
  have kept : KeptByLoading fun g => g.pending.front = [] := by
    constructor
    · intro g g' tree idle inserted
      obtain ⟨-, -, rfl⟩ := insertBlock_eq_ok.mp inserted
      exact idle
    · intro g g' parent child hook idle attached
      obtain ⟨-, -, -, -, -, rfl⟩ := attach_eq_ok.mp attached
      exact idle
  exact kept.ofForest rfl loaded

/-- What is assembled is what the loader gives. -/
theorem ofForest_of_assemble (assembled : assemble? forest = some g) : ofForest forest = .ok g := by
  simp only [assemble?, Option.bind_eq_some_iff, Option.ite_none_right_eq_some,
    Option.some.injEq, List.all_eq_true] at assembled
  obtain ⟨next, above, fits, rfl⟩ := assembled
  rw [forest.ids_spots] at above
  obtain ⟨within, ascending, counter⟩ := numberAbove?_eq_some above
  have distinct : forest.Distinct := fun chain member =>
    BlockTree.distinctChain_of_treeFits none chain fun spot inside =>
      fits spot (List.mem_flatMap.mpr ⟨chain, member, inside⟩)
  have apart : forest.ids.Nodup := ascending.imp fun less same => by
    subst same
    exact Nat.lt_irrefl _ less
  have accepted : forest.Accepted := ⟨apart, fun id member => (within id member).2,
    fun spot member => BlockTree.fits_of_treeFits (fits spot member)⟩
  obtain ⟨g, loaded⟩ := (ofForest_ok_iff distinct).mpr accepted
  obtain ⟨perm, events⟩ := (ofForest_grows loaded).1
  have nodes : g.nodes = forest.spots.map Spot.node := by
    have ordered : (forest.spots.map Spot.node).Pairwise fun a b => a.id.number < b.id.number := by
      rw [List.pairwise_map]
      rw [← forest.ids_spots, List.pairwise_map] at ascending
      simpa only [Spot.id_node] using ascending
    have sorted : g.nodes.Pairwise fun a b => a.id.number < b.id.number := by
      have ids := (Sound.ofForest loaded).tree.ascending
      rwa [Graph.ids, List.pairwise_map] at ids
    exact perm.eq_of_pairwise (fun a b _ _ less more => absurd more (Nat.lt_asymm less)) sorted ordered
  have number : g.nextNumber = next := by
    have ids := ids_ofForest loaded
    rw [CountsIds.ofForest loaded, counter, Nat.zero_max]
    exact Nat.le_antisymm (ceiling_mono ids.subset) (ceiling_mono ids.symm.subset)
  have pending : g.pending = { back := (forest.spots.map Spot.creation).reverse } := by
    have front := front_ofForest loaded
    rw [EventQueue.toList, front, Graph.empty, EventQueue.toList_empty, List.nil_append,
      List.nil_append] at events
    obtain ⟨nodes, counter, ⟨first, back⟩⟩ := g
    cases front
    exact congrArg (EventQueue.mk []) (List.reverse_eq_iff.mp events)
  rw [loaded, ← nodes, ← number, ← pending]

/-- Rebuilding is loading, however it is done. -/
theorem rebuild_eq (forest : Forest) : rebuild forest = ofForest forest := by
  unfold rebuild
  split
  · next assembled => exact (ofForest_of_assemble assembled).symm
  · rfl

end Graph
end RobotBlocks
