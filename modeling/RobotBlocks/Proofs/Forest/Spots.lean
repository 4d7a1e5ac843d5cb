import RobotBlocks.Graph.Spots
import RobotBlocks.Proofs.Forest.Codec

/-! The spots of a forest. What hangs from a tree is told by the tree and the trees below it alone. -/
namespace RobotBlocks

theorem Labelled.mem_of_get? {α : Type} {entries : Labelled α} {label : String} {value : α}
    (found : entries.get? label = some value) : (label, value) ∈ entries := by
  induction entries with
  | nil => cases found
  | cons entry entries ih =>
    obtain ⟨name, other⟩ := entry
    by_cases here : name = label
    · subst here
      simp only [get?, if_true, Option.some.injEq] at found
      exact found ▸ List.mem_cons_self ..
    · rw [get?, if_neg here] at found
      exact List.mem_cons_of_mem _ (ih found)

namespace Spot

variable (spot : Spot)

/-- The chain that hangs from a link of the block. -/
def hanging : Link → List BlockTree
  | .next => spot.below
  | .socket name => (Labelled.get? spot.tree.inputs name).getD []

end Spot

section Content

variable (tree : BlockTree)

@[simp] theorem BlockTree.id_block : tree.block.id = tree.id := by
  obtain ⟨id, kind, fields, extra, inputs⟩ := tree
  exact Block.id_create id kind extra

@[simp] theorem BlockTree.kind_block : tree.block.kind = tree.kind := by
  obtain ⟨id, kind, fields, extra, inputs⟩ := tree
  exact Block.kind_create id kind extra

@[simp] theorem BlockTree.extra_block : tree.block.extra = tree.extra := by
  obtain ⟨id, kind, fields, extra, inputs⟩ := tree
  exact Block.extra_create id kind extra

@[simp] theorem BlockTree.warning_block : tree.block.warning = none := by
  obtain ⟨id, kind, fields, extra, inputs⟩ := tree
  exact Block.warning_create id kind extra

@[simp] theorem BlockTree.sockets_block :
    tree.block.sockets = Socket.declared tree.kind tree.extra := by
  obtain ⟨id, kind, fields, extra, inputs⟩ := tree
  exact Block.sockets_create id kind extra

end Content

@[simp] theorem Spot.id_node (spot : Spot) : spot.node.id = spot.id := spot.tree.id_block

namespace BlockTree

/-! The ids of the spots. -/

mutual

theorem ids_spots (parent : Option (BlockId × Link)) (below : List BlockTree) :
    ∀ tree : BlockTree, (tree.spots parent below).map Spot.id = tree.ids
  | node id _ _ _ inputs => by rw [spots, ids, List.map_cons, ids_inputSpots id inputs]; rfl

theorem ids_inputSpots (owner : BlockId) :
    ∀ inputs : List (String × List BlockTree), (inputSpots owner inputs).map Spot.id = inputIds inputs
  | [] => rfl
  | (name, chain) :: inputs => by
    rw [inputSpots, inputIds, List.map_append, ids_chainSpots _ chain, ids_inputSpots owner inputs]

theorem ids_chainSpots (parent : Option (BlockId × Link)) :
    ∀ chain : List BlockTree, (chainSpots parent chain).map Spot.id = chainIds chain
  | [] => rfl
  | tree :: below => by
    rw [chainSpots, chainIds, List.map_append, ids_spots parent below tree, ids_chainSpots _ below]

end

theorem mem_inputSpots {owner : BlockId} {inputs : List (String × List BlockTree)} {name : String}
    {chain : List BlockTree} (member : (name, chain) ∈ inputs) :
    chainSpots (some (owner, .socket name)) chain ⊆ inputSpots owner inputs := by
  induction inputs with
  | nil => cases member
  | cons input inputs ih =>
    obtain ⟨other, others⟩ := input
    rw [inputSpots]
    rcases List.mem_cons.mp member with same | later
    · cases same
      exact List.subset_append_left ..
    · exact List.Subset.trans (ih later) (List.subset_append_right ..)

theorem spots_eq (parent : Option (BlockId × Link)) (below : List BlockTree) (tree : BlockTree) :
    tree.spots parent below = ⟨tree, below, parent⟩ :: inputSpots tree.id tree.inputs := by
  obtain ⟨id, kind, fields, extra, inputs⟩ := tree
  rfl

theorem own_mem_spots (parent : Option (BlockId × Link)) (below : List BlockTree) (tree : BlockTree) :
    ⟨tree, below, parent⟩ ∈ tree.spots parent below :=
  spots_eq parent below tree ▸ List.mem_cons_self ..

theorem head_mem_chainSpots (parent : Option (BlockId × Link)) (tree : BlockTree)
    (below : List BlockTree) : ⟨tree, below, parent⟩ ∈ chainSpots parent (tree :: below) :=
  List.mem_append_left _ (own_mem_spots parent below tree)

/-! What hangs from a spot of a chain is a spot of the chain. -/

section Downward

variable {spot : Spot} {hook : Link} {head : BlockTree} {rest : List BlockTree}

mutual

/-- The trees below the tree itself stand outside of it. -/
theorem mem_spots_of_hanging (parent : Option (BlockId × Link)) (below : List BlockTree) :
    ∀ tree : BlockTree, spot ∈ tree.spots parent below → spot.hanging hook = head :: rest →
      ⟨head, rest, some (spot.id, hook)⟩ ∈ tree.spots parent below ∨
      (hook = .next ∧ spot.id = tree.id ∧ below = head :: rest)
  | node id kind fields extra inputs, member, hangs => by
    rw [spots] at member ⊢
    rcases List.mem_cons.mp member with rfl | inside
    · cases hook with
      | next => exact .inr ⟨rfl, rfl, hangs⟩
      | socket name =>
        refine .inl (List.mem_cons_of_mem _ ?_)
        change (Labelled.get? inputs name).getD [] = head :: rest at hangs
        cases found : Labelled.get? inputs name with
        | none => simp [found] at hangs
        | some chain =>
          rw [found, Option.getD_some] at hangs
          subst hangs
          exact mem_inputSpots (Labelled.mem_of_get? found) (head_mem_chainSpots _ head rest)
    · exact .inl (List.mem_cons_of_mem _ (mem_inputSpots_of_hanging id inputs inside hangs))

theorem mem_inputSpots_of_hanging (owner : BlockId) :
    ∀ inputs : List (String × List BlockTree), spot ∈ inputSpots owner inputs →
      spot.hanging hook = head :: rest → ⟨head, rest, some (spot.id, hook)⟩ ∈ inputSpots owner inputs
  | [], member, _ => nomatch member
  | (name, chain) :: inputs, member, hangs => by
    rw [inputSpots] at member ⊢
    rcases List.mem_append.mp member with here | later
    · exact List.mem_append_left _ (mem_chainSpots_of_hanging _ chain here hangs)
    · exact List.mem_append_right _ (mem_inputSpots_of_hanging owner inputs later hangs)

theorem mem_chainSpots_of_hanging (parent : Option (BlockId × Link)) :
    ∀ chain : List BlockTree, spot ∈ chainSpots parent chain → spot.hanging hook = head :: rest →
      ⟨head, rest, some (spot.id, hook)⟩ ∈ chainSpots parent chain
  | [], member, _ => nomatch member
  | tree :: below, member, hangs => by
    rw [chainSpots] at member ⊢
    rcases List.mem_append.mp member with here | later
    · rcases mem_spots_of_hanging parent below tree here hangs with inside | ⟨rfl, same, rfl⟩
      · exact List.mem_append_left _ inside
      · rw [same]
        exact List.mem_append_right _ (head_mem_chainSpots _ head rest)
    · exact List.mem_append_right _ (mem_chainSpots_of_hanging _ below later hangs)

end

end Downward

end BlockTree

/-! What hangs from a link hangs from a spot that shows it there. -/

/-- One of the spots shows the tree, in front of the trees below it, at the link of the spot. -/
def Spot.HangsIn (spot : Spot) (spots : List Spot) : Prop :=
  ∃ up ∈ spots, ∃ hook, spot.parent = some (up.id, hook) ∧ up.hanging hook = spot.tree :: spot.below

theorem Spot.HangsIn.mono {spot : Spot} {spots more : List Spot} (hangs : spot.HangsIn spots)
    (subset : spots ⊆ more) : spot.HangsIn more := by
  obtain ⟨up, member, hook, linked, shows⟩ := hangs
  exact ⟨up, subset member, hook, linked, shows⟩

namespace BlockTree

variable {spot : Spot}

mutual

theorem hangsIn_spots (parent : Option (BlockId × Link)) (below : List BlockTree) :
    ∀ tree : BlockTree, tree.Distinct → spot ∈ tree.spots parent below →
      spot = ⟨tree, below, parent⟩ ∨ spot.HangsIn (tree.spots parent below)
  | node id kind fields extra inputs, ⟨_, labels, inner⟩, member => by
    rw [spots] at member ⊢
    rcases List.mem_cons.mp member with rfl | inside
    · exact .inl rfl
    · right
      rcases hangsIn_inputSpots id inputs inner inside with ⟨name, listed, linked⟩ | hangs
      · refine ⟨⟨node id kind fields extra inputs, below, parent⟩, List.mem_cons_self .., .socket name,
          linked, ?_⟩
        change (Labelled.get? inputs name).getD [] = spot.tree :: spot.below
        rw [Labelled.get?_eq_of_mem labels listed]
        rfl
      · exact hangs.mono (List.subset_cons_self ..)

theorem hangsIn_inputSpots (owner : BlockId) :
    ∀ inputs : List (String × List BlockTree), DistinctInputs inputs → spot ∈ inputSpots owner inputs →
      (∃ name, (name, spot.tree :: spot.below) ∈ inputs ∧ spot.parent = some (owner, .socket name)) ∨
      spot.HangsIn (inputSpots owner inputs)
  | [], _, member => nomatch member
  | (name, chain) :: inputs, ⟨first, others⟩, member => by
    rw [inputSpots] at member ⊢
    rcases List.mem_append.mp member with here | later
    · rcases hangsIn_chainSpots _ chain first here with ⟨linked, same⟩ | hangs
      · exact .inl ⟨name, same ▸ List.mem_cons_self .., linked⟩
      · exact .inr (hangs.mono (List.subset_append_left ..))
    · rcases hangsIn_inputSpots owner inputs others later with ⟨other, listed, linked⟩ | hangs
      · exact .inl ⟨other, List.mem_cons_of_mem _ listed, linked⟩
      · exact .inr (hangs.mono (List.subset_append_right ..))

theorem hangsIn_chainSpots (parent : Option (BlockId × Link)) :
    ∀ chain : List BlockTree, DistinctChain chain → spot ∈ chainSpots parent chain →
      (spot.parent = parent ∧ chain = spot.tree :: spot.below) ∨ spot.HangsIn (chainSpots parent chain)
  | [], _, member => nomatch member
  | tree :: below, ⟨first, others⟩, member => by
    rw [chainSpots] at member ⊢
    rcases List.mem_append.mp member with here | later
    · rcases hangsIn_spots parent below tree first here with rfl | hangs
      · exact .inl ⟨rfl, rfl⟩
      · exact .inr (hangs.mono (List.subset_append_left ..))
    · right
      rcases hangsIn_chainSpots _ below others later with ⟨linked, same⟩ | hangs
      · exact ⟨⟨tree, below, parent⟩, List.mem_append_left _ (own_mem_spots parent below tree), .next,
          linked, same⟩
      · exact hangs.mono (List.subset_append_right ..)

end

end BlockTree

namespace Forest

variable {forest : Forest} {spot : Spot}

theorem ids_spots (forest : Forest) : forest.spots.map Spot.id = forest.ids := by
  rw [spots, ids, List.map_flatMap]
  exact List.flatMap_congr fun chain _ => BlockTree.ids_chainSpots none chain

theorem length_spots (forest : Forest) : forest.spots.length = forest.size := by
  rw [size, ← ids_spots, List.length_map]

theorem mem_spots_of_hanging {hook : Link} {head : BlockTree} {rest : List BlockTree}
    (member : spot ∈ forest.spots) (hangs : spot.hanging hook = head :: rest) :
    ⟨head, rest, some (spot.id, hook)⟩ ∈ forest.spots := by
  obtain ⟨chain, listed, inside⟩ := List.mem_flatMap.mp member
  exact List.mem_flatMap.mpr ⟨chain, listed, BlockTree.mem_chainSpots_of_hanging none chain inside hangs⟩

/-- A spot is the head of a stack, or a spot of the forest shows it. -/
theorem hangsIn_spots (distinct : forest.Distinct) (member : spot ∈ forest.spots) :
    (spot.parent = none ∧ spot.tree :: spot.below ∈ forest.chains) ∨ spot.HangsIn forest.spots := by
  obtain ⟨chain, listed, inside⟩ := List.mem_flatMap.mp member
  rcases BlockTree.hangsIn_chainSpots none chain (distinct chain listed) inside with ⟨top, same⟩ | hangs
  · exact .inl ⟨top, same ▸ listed⟩
  · exact .inr (hangs.mono fun other there => List.mem_flatMap.mpr ⟨chain, listed, there⟩)

end Forest
end RobotBlocks
