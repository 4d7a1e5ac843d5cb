import Mathlib.Data.List.Sort
import RobotBlocks.Proofs.Graph.Distinct
import RobotBlocks.Proofs.Graph.Loading
import RobotBlocks.Proofs.Graph.RoundTrip

/-! The normal form of a forest, and that loading and storing gives it: empty chains are dropped,
stacks stand in ascending order of their heads, inputs in the order of the sockets, and every missing
field of kind and state follows the given ones. -/
namespace RobotBlocks

namespace BlockTree

/-- The given fields, then those that kind and state ask for and that are missing. -/
def filled (fields : Labelled String) (kind : Kind) (extra : ExtraState) : Labelled String :=
  fields ++ (Block.defaultFields kind ++ Block.paramFields 0 (extra.params?.getD [])).filter
    fun (name, _) => name ∉ Labelled.labels fields

/-- The chains that are not empty, in the order of the sockets. -/
def arranged (sockets : List Socket) (inputs : Labelled (List BlockTree)) : Labelled (List BlockTree) :=
  sockets.filterMap fun socket =>
    ((inputs.get? socket.name).filter (!·.isEmpty)).map fun chain => (socket.name, chain)

mutual

def normal : BlockTree → BlockTree
  | node id kind fields extra inputs =>
    node id kind (filled fields kind extra) extra
      (arranged (Socket.declared kind extra) (normalInputs inputs))

def normalInputs : List (String × List BlockTree) → List (String × List BlockTree)
  | [] => []
  | (name, chain) :: inputs => (name, normalChain chain) :: normalInputs inputs

def normalChain : List BlockTree → List BlockTree
  | [] => []
  | tree :: chain => normal tree :: normalChain chain

end

theorem get?_normalInputs (inputs : List (String × List BlockTree)) (name : String) :
    Labelled.get? (normalInputs inputs) name = (Labelled.get? inputs name).map normalChain := by
  induction inputs with
  | nil => rfl
  | cons input inputs ih =>
    obtain ⟨other, chain⟩ := input
    by_cases here : other = name <;> simp [normalInputs, Labelled.get?, here, ih]

end BlockTree

namespace Forest

/-- The number by which stacks are ordered. -/
def headNumber (chain : List BlockTree) : Nat := chain.head?.elim 0 (·.id.number)

/-- The stacks that are not empty, in ascending order of their heads. -/
def ordered (forest : Forest) : List (List BlockTree) :=
  (forest.chains.filter (!·.isEmpty)).insertionSort fun a b => headNumber a ≤ headNumber b

def normal (forest : Forest) : Forest := ⟨forest.ordered.map BlockTree.normalChain⟩

/-- The heads of stacks, empty stacks left out. -/
def heads (chains : List (List BlockTree)) : List BlockId :=
  chains.filterMap fun chain => chain.head?.map BlockTree.id

theorem mem_ordered {forest : Forest} {chain : List BlockTree} :
    chain ∈ forest.ordered ↔ chain ∈ forest.chains ∧ chain ≠ [] := by
  rw [ordered, List.mem_insertionSort, List.mem_filter]
  simp

theorem mem_heads {chains : List (List BlockTree)} {top : BlockId} :
    top ∈ heads chains ↔ ∃ head rest, head :: rest ∈ chains ∧ head.id = top := by
  rw [heads, List.mem_filterMap]
  constructor
  · rintro ⟨chain, member, same⟩
    cases chain with
    | nil => cases same
    | cons head rest => exact ⟨head, rest, member, Option.some.inj same⟩
  · rintro ⟨head, rest, member, rfl⟩
    exact ⟨_, member, rfl⟩

theorem heads_sublist (chains : List (List BlockTree)) :
    (heads chains).Sublist (chains.flatMap BlockTree.chainIds) := by
  induction chains with
  | nil => exact .slnil
  | cons chain chains ih =>
    rw [List.flatMap_cons]
    cases chain with
    | nil => exact ih
    | cons head rest =>
      obtain ⟨id, kind, fields, extra, inputs⟩ := head
      exact (ih.trans (List.sublist_append_right ..)).cons_cons id

/-- The heads of the ordered stacks are the heads of all stacks, in ascending order. -/
theorem heads_ordered (forest : Forest) (distinct : forest.ids.Nodup) :
    (heads forest.ordered).Nodup ∧
    (heads forest.ordered).Pairwise (fun a b => a.number ≤ b.number) ∧
    ∀ top, top ∈ heads forest.ordered ↔ ∃ head rest, head :: rest ∈ forest.chains ∧ head.id = top := by
  refine ⟨?_, ?_, fun top => ?_⟩
  · have perm : (heads forest.ordered).Perm (heads (forest.chains.filter (!·.isEmpty))) :=
      (List.perm_insertionSort _ _).filterMap _
    have sub : (heads (forest.chains.filter (!·.isEmpty))).Sublist (heads forest.chains) :=
      List.filter_sublist.filterMap _
    exact perm.nodup_iff.mpr (distinct.sublist (sub.trans (heads_sublist forest.chains)))
  · have sorted : forest.ordered.Pairwise fun a b => headNumber a ≤ headNumber b :=
      List.pairwise_insertionSort _ _
    have numbered : ∀ {chain : List BlockTree} {top}, chain.head?.map BlockTree.id = some top →
        headNumber chain = top.number := by
      intro chain top same
      obtain ⟨head, first, rfl⟩ := Option.map_eq_some_iff.mp same
      rw [headNumber, first, Option.elim_some]
    refine sorted.filterMap _ fun a b less top here next there => ?_
    rwa [numbered here, numbered there] at less
  · simp only [mem_heads, mem_ordered]
    simp

end Forest

/-! Fields. -/

/-- Entries under distinct labels come in behind, each unless its label is known. -/
theorem Labelled.foldl_putNew_eq {α : Type} (entries more : Labelled α) (distinct : more.labels.Nodup) :
    more.foldl (fun all (name, value) => all.putNew name value) entries
      = entries ++ more.filter fun (name, _) => name ∉ entries.labels := by
  induction more generalizing entries with
  | nil => simp
  | cons entry more ih =>
    obtain ⟨name, value⟩ := entry
    obtain ⟨outside, distinct⟩ := List.nodup_cons.mp distinct
    rw [List.foldl_cons, ih _ distinct]
    by_cases known : name ∈ entries.labels
    · obtain ⟨old, found⟩ := Option.isSome_iff_exists.mp (get?_isSome_iff.mpr known)
      simp [putNew, found, known]
    · have unknown := get?_eq_none known
      have others : more.filter (fun (other, _) => other ∉ labels (entries ++ [(name, value)]))
          = more.filter fun (other, _) => other ∉ entries.labels := by
        refine List.filter_congr fun entry member => ?_
        have listed : entry.1 ∈ labels more := List.mem_map_of_mem member
        have apart : entry.1 ≠ name := fun same => outside (same ▸ listed)
        have same : entry.1 ∈ labels (entries ++ [(name, value)]) ↔ entry.1 ∈ entries.labels := by
          rw [labels_append]
          simp [labels, apart]
        simp only [same]
      simp only [putNew, unknown]
      rw [others, List.filter_cons_of_pos (by simpa using known), List.append_assoc]
      rfl

theorem BlockTree.fields_block (id : BlockId) (kind : Kind) (fields : Labelled String)
    (extra : ExtraState) (inputs : List (String × List BlockTree)) :
    (node id kind fields extra inputs).block.fields = filled fields kind extra := by
  have distinct := Block.create_distinct id kind extra
  change (Block.create id kind extra).fields.foldl _ fields = _
  rw [Labelled.foldl_putNew_eq fields _ distinct, Block.fields_create]
  rfl

/-! What a loaded graph shows. -/

namespace Graph

variable {g : Graph} {forest : Forest} {spot : Spot} {depth : Nat}

section Loaded

variable (loaded : ofForest forest = .ok g) (distinct : forest.Distinct)
include loaded

theorem node?_spot (member : spot ∈ forest.spots) : g.node? spot.id = some spot.node :=
  (ofForest_grows loaded).1.node?_spot (.ofForest loaded) member

theorem spot_unique {other : Spot} (member : spot ∈ forest.spots) (present : other ∈ forest.spots)
    (same : spot.id = other.id) : spot = other := by
  have ids : (forest.spots.map Spot.id).Nodup := by
    rw [forest.ids_spots]
    exact (ids_ofForest loaded).nodup_iff.mp (Sound.ofForest loaded).tree.distinct
  exact List.inj_on_of_nodup_map ids member present same

/-- Every link of a loaded graph is that of a spot. -/
theorem spot_of_contains {id : BlockId} (present : g.contains id = true) :
    ∃ spot ∈ forest.spots, spot.id = id := by
  have listed := (ids_ofForest loaded).mem_iff.mp (contains_iff_mem.mp present)
  rw [← forest.ids_spots] at listed
  exact List.mem_map.mp listed

include distinct

/-- From a link of a spot hangs the head of what the forest shows there. -/
theorem child?_spot (member : spot ∈ forest.spots) (hook : Link) :
    g.child? spot.id hook = (spot.hanging hook).head?.map BlockTree.id := by
  have tree := (Sound.ofForest loaded).tree
  cases hangs : spot.hanging hook with
  | nil =>
    refine tree.child?_eq_none.mpr fun child linked => ?_
    obtain ⟨below, listed, rfl⟩ := spot_of_contains loaded (contains_of_parentLink linked)
    rw [parentLink?, node?_spot loaded listed] at linked
    change below.parent = _ at linked
    rcases Forest.hangsIn_spots distinct listed with ⟨top, -⟩ | ⟨up, present, _, hung, shows⟩
    · cases top.symm.trans linked
    · obtain ⟨same, rfl⟩ := Prod.mk.inj (Option.some.inj (hung.symm.trans linked))
      rw [spot_unique loaded present member same, hangs] at shows
      cases shows
  | cons head rest =>
    have shown := Forest.mem_spots_of_hanging member hangs
    have there : g.node? head.id = some (Spot.node ⟨head, rest, some (spot.id, hook)⟩) :=
      node?_spot loaded shown
    exact tree.child?_eq_some.mpr (by rw [parentLink?, there]; rfl)

/-- A chain is stored in its normal form. -/
theorem treesWithin_spot (member : spot ∈ forest.spots) (enough : g.size ≤ depth + g.depth spot.id) :
    g.treesWithin depth spot.id = BlockTree.normalChain (spot.tree :: spot.below) := by
  have tree := (Sound.ofForest loaded).tree
  generalize named : spot.id = id at enough
  induction id using tree.descends.induction generalizing spot depth with
  | h id ih =>
    subst named
    have found : g.block? spot.id = some spot.tree.block := by
      rw [block?, node?_spot loaded member]
      rfl
    have bound := tree.depth_lt_size (contains_iff_block.mpr ⟨_, found⟩)
    obtain ⟨depth, rfl⟩ := Nat.exists_eq_add_one_of_ne_zero (n := depth) (by omega)
    -- What hangs from the spot is deeper by one, whether it is inside or below.
    have hanging : ∀ {hook head rest} (levels : Nat), depth ≤ levels →
        spot.hanging hook = head :: rest →
        g.treesWithin levels head.id = BlockTree.normalChain (head :: rest) := by
      intro hook head rest levels enough' hangs
      have shown := Forest.mem_spots_of_hanging member hangs
      have led : g.child? spot.id hook = some head.id := by
        rw [child?_spot loaded distinct member, hangs]
        rfl
      have up := tree.up_of_child? led
      have deeper := tree.depth_child up
      exact ih head.id up shown rfl (by omega)
    have stack : (g.next? spot.id).elim [] (g.treesWithin (depth + 1))
        = BlockTree.normalChain spot.below := by
      rw [next?, child?_spot loaded distinct member]
      cases shown : spot.hanging .next with
      | nil =>
        change spot.below = [] at shown
        rw [shown]
        rfl
      | cons head rest =>
        have same : spot.below = head :: rest := shown
        rw [same]
        exact hanging (depth + 1) (Nat.le_succ depth) shown
    have own : g.treeWithin depth spot.id spot.tree.block = spot.tree.normal := by
      have children := child?_spot loaded distinct member
      obtain ⟨⟨id, kind, fields, extra, inputs⟩, below, parent⟩ := spot
      have inside : ∀ socket : Socket,
          ((g.plugged? id socket.name).map fun child => (socket.name, g.treesWithin depth child))
            = ((Labelled.get? (BlockTree.normalInputs inputs) socket.name).filter (!·.isEmpty)).map
                fun chain => (socket.name, chain) := by
        intro socket
        have child : g.plugged? id socket.name
            = ((Labelled.get? inputs socket.name).getD []).head?.map BlockTree.id := children _
        rw [child, BlockTree.get?_normalInputs]
        cases found : Labelled.get? inputs socket.name with
        | none => rfl
        | some chain =>
          cases chain with
          | nil => rfl
          | cons head rest =>
            have shows : Spot.hanging ⟨.node id kind fields extra inputs, below, parent⟩
                (.socket socket.name) = head :: rest := by
              change (Labelled.get? inputs socket.name).getD [] = _
              rw [found]
              rfl
            have stored := hanging depth (Nat.le_refl depth) shows
            simp [stored, BlockTree.normalChain]
      rw [treeWithin, BlockTree.normal, BlockTree.fields_block, BlockTree.sockets_block,
        BlockTree.kind_block, BlockTree.extra_block, BlockTree.arranged]
      exact congrArg (BlockTree.node id kind _ extra)
        (List.filterMap_congr fun socket _ => inside socket)
    rw [tree.treesWithin_eq depth found, own, stack]
    rfl

/-- The top blocks are the heads of the stacks. -/
theorem mem_topBlocks_loaded {top : BlockId} :
    top ∈ g.topBlocks ↔ ∃ head rest, head :: rest ∈ forest.chains ∧ head.id = top := by
  rw [(Sound.ofForest loaded).tree.mem_topBlocks]
  constructor
  · rintro ⟨present, ends⟩
    obtain ⟨spot, member, rfl⟩ := spot_of_contains loaded present
    rcases Forest.hangsIn_spots distinct member with ⟨-, listed⟩ | ⟨up, -, hook, hung, -⟩
    · exact ⟨spot.tree, spot.below, listed, rfl⟩
    · rw [parent?, parentLink?, node?_spot loaded member, Option.bind_some] at ends
      change spot.parent.map _ = none at ends
      simp [hung] at ends
  · rintro ⟨head, rest, listed, rfl⟩
    have member : ⟨head, rest, none⟩ ∈ forest.spots :=
      List.mem_flatMap.mpr ⟨_, listed, BlockTree.head_mem_chainSpots none head rest⟩
    have there : g.node? head.id = some (Spot.node ⟨head, rest, none⟩) := node?_spot loaded member
    constructor
    · rw [Graph.contains, there]; rfl
    · rw [parent?, parentLink?, there]; rfl

theorem topBlocks_loaded : g.topBlocks = Forest.heads forest.ordered := by
  have tree := (Sound.ofForest loaded).tree
  have ids := (ids_ofForest loaded).nodup_iff.mp tree.distinct
  obtain ⟨nodup, ascending, heads⟩ := forest.heads_ordered ids
  have perm : g.topBlocks.Perm (Forest.heads forest.ordered) :=
    (List.perm_ext_iff_of_nodup tree.topBlocks_nodup nodup).mpr fun top => by
      rw [mem_topBlocks_loaded loaded distinct, heads]
  have tops : g.topBlocks.Pairwise fun a b => a.number ≤ b.number :=
    (tree.ascending.sublist (List.filter_sublist.map Node.id)).imp Nat.le_of_lt
  refine perm.eq_of_pairwise (fun a b _ _ less more => ?_) tops ascending
  obtain ⟨m⟩ := a
  obtain ⟨n⟩ := b
  exact congrArg BlockId.mk (Nat.le_antisymm less more)

/-- Loading and storing a forest gives its normal form. -/
theorem toForest_loaded : g.toForest = forest.normal := by
  have each : ∀ chain ∈ forest.ordered, (chain.head?.map BlockTree.id).map (g.treesWithin g.size)
      = some (BlockTree.normalChain chain) := by
    intro chain member
    obtain ⟨listed, present⟩ := Forest.mem_ordered.mp member
    cases chain with
    | nil => exact absurd rfl present
    | cons head rest =>
      have shown : ⟨head, rest, none⟩ ∈ forest.spots :=
        List.mem_flatMap.mpr ⟨_, listed, BlockTree.head_mem_chainSpots none head rest⟩
      exact congrArg some (treesWithin_spot loaded distinct shown (Nat.le_add_right ..))
  rw [toForest, Forest.normal, topBlocks_loaded loaded distinct, Forest.heads, List.map_filterMap,
    List.filterMap_congr each, List.filterMap_eq_map']

/-- A value socket of a loaded graph holds a single block. -/
theorem singleValues_loaded : g.SingleValues := by
  intro parent child name owner linked found offered
  obtain ⟨spot, member, rfl⟩ := spot_of_contains loaded (contains_of_parentLink linked)
  rw [parentLink?, node?_spot loaded member] at linked
  rcases Forest.hangsIn_spots distinct member with ⟨top, -⟩ | ⟨up, present, hook, hung, shows⟩
  · cases top.symm.trans linked
  · obtain ⟨rfl, rfl⟩ := Prod.mk.inj (Option.some.inj (hung.symm.trans linked))
    rw [block?, node?_spot loaded present] at found
    cases found
    have fits := (ofForest_grows loaded).2 up present
    rw [next?, child?_spot loaded distinct member]
    change spot.below.head?.map _ = none
    obtain ⟨⟨id, kind, fields, extra, inputs⟩, below, place⟩ := up
    change (Labelled.get? inputs name).getD [] = _ at shows
    cases listed : Labelled.get? inputs name with
    | none => simp [listed] at shows
    | some chain =>
      rw [listed, Option.getD_some] at shows
      subst shows
      obtain ⟨socket, own, single⟩ := fits name _ (Labelled.mem_of_get? listed)
      have same : socket = ⟨name, .value⟩ := Option.some.inj (own.symm.trans offered)
      have length : spot.below.length + 1 ≤ 1 := single (by rw [same])
      rw [List.eq_nil_of_length_eq_zero (Nat.le_zero.mp (Nat.le_of_succ_le_succ length))]
      rfl

end Loaded

/-- The loader takes exactly the forests whose ids differ and have successors, whose inputs are named
for declared sockets and whose value sockets hold single blocks. What is stored after loading is the
normal form, and the normal form is loaded and stored as it is. -/
theorem ofForest_exact (distinct : forest.Distinct) :
    ((∃ g, ofForest forest = .ok g) ↔ forest.Accepted) ∧
    ∀ g, ofForest forest = .ok g → g.toForest = forest.normal ∧
      (∃ again, ofForest forest.normal = .ok again ∧ again.toForest = forest.normal) ∧
      forest.normal.normal = forest.normal := by
  refine ⟨ofForest_ok_iff distinct, fun g loaded => ?_⟩
  have stored := toForest_loaded loaded distinct
  have whole := Sound.ofForest loaded
  obtain ⟨again, reloaded, copy⟩ := whole.copy_of_toForest (singleValues_loaded loaded distinct)
    fun id present => early_ofForest loaded id (contains_iff_mem.mp present)
  have same : again.toForest = forest.normal :=
    ((copy.mirrors whole).toForest whole.tree copy.sound.tree).trans stored
  have kept : forest.normal.Distinct :=
    stored ▸ (Distinct.ofForest distinct loaded).toForest whole
  rw [stored] at reloaded
  exact ⟨stored, ⟨again, reloaded, same⟩, (toForest_loaded reloaded kept).symm.trans same⟩

/-- Stacks out of order, an empty stack, an empty chain and missing fields. -/
theorem ofForest_exact_gaps :
    let state : ExtraState := .call { args := [{ name := "a" }, { name := "b" }] }
    let event : ExtraState := .event [{ name := "p" }]
    let forest : Forest := ⟨[[.node ⟨3⟩ .methodCall [("NOTE", "x")] state
        [("ARG1", [.node ⟨4⟩ .number [] .none []]), ("ARG0", [])]], [], [.node ⟨1⟩ .event [] event []]]⟩
    ∃ g, Graph.ofForest forest = .ok g ∧
      g.toForest = ⟨[[.node ⟨1⟩ .event [("NAME", ""), ("PARAM_0", "p")] event []],
        [.node ⟨3⟩ .methodCall [("NOTE", "x"), ("NAME", "")] state
          [("ARG1", [.node ⟨4⟩ .number [("NUM", "0")] .none []])]]]⟩ := by
  intro state event forest
  have distinct : forest.Distinct := by
    simp [forest, Forest.Distinct, BlockTree.DistinctChain, BlockTree.Distinct,
      BlockTree.DistinctInputs, Labelled.labels]
  obtain ⟨g, loaded⟩ : ∃ g, Graph.ofForest forest = .ok g := ⟨_, rfl⟩
  exact ⟨g, loaded, ((ofForest_exact distinct).2 g loaded).1.trans rfl⟩

end Graph
end RobotBlocks
