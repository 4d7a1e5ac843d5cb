import Mathlib.Data.List.Basic
import Mathlib.Data.List.Nodup
import RobotBlocks.Graph.Edit

/-! What a graph answers after each primitive edit. Later proofs ask a graph only for the block
under an id and for the link that leads to it. -/
namespace RobotBlocks.Graph

variable {g : Graph} {id other : BlockId}

theorem node?_id {node : Node} (h : g.node? id = some node) : node.id = id := by
  simpa [node?] using List.find?_some h

theorem node?_mem {node : Node} (h : g.node? id = some node) : node ∈ g.nodes :=
  List.mem_of_find?_eq_some h

theorem mem_blocks {block : Block} (found : g.block? id = some block) : block ∈ g.blocks := by
  obtain ⟨node, held, rfl⟩ := Option.map_eq_some_iff.mp found
  exact List.mem_map_of_mem (node?_mem held)

theorem contains_iff_mem : g.contains id = true ↔ id ∈ g.ids := by
  simp [contains, node?, ids, List.find?_isSome]

theorem contains_iff_block : g.contains id = true ↔ ∃ block, g.block? id = some block := by
  simp [contains, block?, Option.isSome_iff_exists]

theorem block?_of_missing (missing : g.contains id = false) : g.block? id = none := by
  simpa [contains, block?] using missing

theorem block?_id {block : Block} (h : g.block? id = some block) : block.id = id := by
  obtain ⟨node, found, rfl⟩ := Option.map_eq_some_iff.mp h
  exact node?_id found

theorem contains_of_parentLink {link : BlockId × Link} (h : g.parentLink? id = some link) :
    g.contains id = true := by
  cases found : g.node? id with
  | none => simp [parentLink?, found] at h
  | some node => simp [contains, found]

theorem parentLink?_of_missing (h : g.contains id = false) : g.parentLink? id = none := by
  by_contra linked
  obtain ⟨link, linked⟩ := Option.ne_none_iff_exists'.mp linked
  simp [contains_of_parentLink linked] at h

theorem parent?_eq_some {parent : BlockId} :
    g.parent? id = some parent ↔ ∃ link, g.parentLink? id = some (parent, link) := by
  simp [parent?, Option.map_eq_some_iff]

theorem get_eq_ok {block : Block} : g.get id = .ok block ↔ g.block? id = some block := by
  unfold get
  cases g.block? id <;> simp

/-- With distinct ids a node answers for its own id. -/
theorem node?_of_mem (distinct : g.ids.Nodup) {node : Node} (h : node ∈ g.nodes) :
    g.node? node.id = some node := by
  have exist : (g.node? node.id).isSome := by
    rw [node?, List.find?_isSome]
    exact ⟨node, h, by simp⟩
  obtain ⟨found, same⟩ := Option.isSome_iff_exists.mp exist
  have ids_eq : found.id = node.id := node?_id same
  have inj := List.inj_on_of_nodup_map distinct (node?_mem same) h ids_eq
  rw [same, inj]

/-! The queue of events says nothing about blocks and links. -/

section Pending

variable (g) (event : Event) (id)

@[simp] theorem block?_push : (g.push event).block? id = g.block? id := rfl
@[simp] theorem parentLink?_push : (g.push event).parentLink? id = g.parentLink? id := rfl

end Pending

/-! Editing one node. -/

section Update

variable (g) (id) (change : Node → Node) (keeps : ∀ node, node.id = id → (change node).id = id)
include keeps

theorem node?_updateNode (asked : BlockId) :
    (g.updateNode id change).node? asked
      = if asked = id then (g.node? asked).map change else g.node? asked := by
  have test : ((fun node : Node => decide (node.id = asked)) ∘
      fun node => if node.id = id then change node else node)
        = fun node : Node => decide (node.id = asked) := by
    funext node
    by_cases same : node.id = id <;> simp [same, keeps]
  have mapped : (g.updateNode id change).node? asked
      = (g.node? asked).map fun node => if node.id = id then change node else node := by
    simp only [updateNode, node?, List.find?_map, test]
  rw [mapped]
  cases found : g.node? asked with
  | none => simp
  | some node =>
    have same := node?_id found
    by_cases here : asked = id <;> simp [here, same]

theorem ids_updateNode : (g.updateNode id change).ids = g.ids := by
  simp only [ids, updateNode, List.map_map]
  apply List.map_congr_left
  intro node _
  by_cases same : node.id = id <;> simp [same, keeps]

end Update

section Relink

variable (g) (id) (parent : Option (BlockId × Link)) (asked : BlockId)

@[simp] theorem ids_setParent : (g.setParent id parent).ids = g.ids :=
  ids_updateNode g id _ fun _ same => same

theorem node?_setParent :
    (g.setParent id parent).node? asked
      = if asked = id then (g.node? asked).map fun node => { node with parent }
        else g.node? asked :=
  node?_updateNode g id (fun node => { node with parent }) (fun _ same => same) asked

@[simp] theorem block?_setParent : (g.setParent id parent).block? asked = g.block? asked := by
  rw [block?, node?_setParent]
  split
  · cases found : g.node? asked <;> simp [block?, found]
  · rfl

theorem parentLink?_setParent :
    (g.setParent id parent).parentLink? asked
      = if asked = id ∧ g.contains asked then parent else g.parentLink? asked := by
  rw [parentLink?, node?_setParent]
  by_cases here : asked = id
  · cases found : g.node? asked <;> simp [here ▸ found, here, parentLink?, contains]
  · simp [here, parentLink?]

end Relink

section Content

variable (g) (id) (change : Block → Block) (keeps : ∀ block, block.id = id → (change block).id = id)
include keeps

theorem ids_updateBlock : (g.updateBlock id change).ids = g.ids :=
  ids_updateNode g id (fun node => { node with block := change node.block })
    fun node => keeps node.block

theorem contains_updateBlock (asked : BlockId) :
    (g.updateBlock id change).contains asked = g.contains asked := by
  rw [Bool.eq_iff_iff, contains_iff_mem, contains_iff_mem, ids_updateBlock g id change keeps]

theorem node?_updateBlock (asked : BlockId) :
    (g.updateBlock id change).node? asked
      = if asked = id then (g.node? asked).map fun node => { node with block := change node.block }
        else g.node? asked :=
  node?_updateNode g id (fun node => { node with block := change node.block })
    (fun node => keeps node.block) asked

theorem block?_updateBlock (asked : BlockId) :
    (g.updateBlock id change).block? asked
      = if asked = id then (g.block? asked).map change else g.block? asked := by
  rw [block?, node?_updateBlock g id change keeps]
  split
  · cases found : g.node? asked <;> simp [block?, found]
  · rfl

theorem parentLink?_updateBlock (asked : BlockId) :
    (g.updateBlock id change).parentLink? asked = g.parentLink? asked := by
  rw [parentLink?, node?_updateBlock g id change keeps]
  split
  · cases found : g.node? asked <;> simp [parentLink?, found]
  · rfl

theorem child?_updateBlock (parent : BlockId) (hook : Link) :
    (g.updateBlock id change).child? parent hook = g.child? parent hook := by
  have test : ((fun node : Node => decide (node.parent = some (parent, hook))) ∘
      fun node => if node.id = id then { node with block := change node.block } else node)
        = fun node : Node => decide (node.parent = some (parent, hook)) := by
    funext node
    by_cases same : node.id = id <;> simp [same]
  simp only [child?, updateBlock, updateNode, List.find?_map, test, Option.map_map]
  refine Option.map_congr fun node _ => ?_
  by_cases same : node.id = id
  · simp only [Function.comp, same]
    exact keeps node.block same
  · simp only [Function.comp, if_neg same]

end Content

/-! Adding a node. -/

theorem insertNode_perm (node : Node) (nodes : List Node) :
    (insertNode node nodes).Perm (node :: nodes) := by
  induction nodes with
  | nil => exact .refl _
  | cons first rest ih =>
    unfold insertNode
    split
    · exact .refl _
    · exact (ih.cons first).trans (.swap node first rest)

theorem insertNode_ascending (node : Node) {nodes : List Node}
    (fresh : ∀ other ∈ nodes, other.id ≠ node.id)
    (ascending : nodes.Pairwise fun a b => a.id.number < b.id.number) :
    (insertNode node nodes).Pairwise fun a b => a.id.number < b.id.number := by
  induction nodes with
  | nil => simp [insertNode]
  | cons first rest ih =>
    obtain ⟨below, ordered⟩ := List.pairwise_cons.mp ascending
    unfold insertNode
    split
    · next before =>
      refine List.pairwise_cons.mpr ⟨?_, ascending⟩
      intro later member
      rcases List.mem_cons.mp member with rfl | member
      · exact before
      · exact Nat.lt_trans before (below later member)
    · next notBefore =>
      have other : first.id.number ≠ node.id.number := by
        intro same
        apply fresh first (List.mem_cons_self ..)
        cases ha : first.id; cases hb : node.id
        simp_all
      refine List.pairwise_cons.mpr
        ⟨?_, ih (fun x hx => fresh x (List.mem_cons_of_mem _ hx)) ordered⟩
      intro later member
      rcases List.mem_cons.mp ((insertNode_perm node rest).mem_iff.mp member) with rfl | member
      · omega
      · exact below later member

theorem find?_insertNode (node : Node) {nodes : List Node}
    (fresh : ∀ other ∈ nodes, other.id ≠ node.id) (asked : BlockId) :
    (insertNode node nodes).find? (fun node => node.id = asked)
      = if asked = node.id then some node else nodes.find? fun node => node.id = asked := by
  induction nodes with
  | nil => by_cases here : node.id = asked <;> simp [insertNode, here, eq_comm]
  | cons first rest ih =>
    have ih := ih fun x hx => fresh x (List.mem_cons_of_mem _ hx)
    have differs := fresh first (List.mem_cons_self ..)
    unfold insertNode
    split
    · by_cases here : asked = node.id
      · simp [here]
      · simp [List.find?_cons, here, Ne.symm here]
    · rw [List.find?_cons, List.find?_cons, ih]
      by_cases here : first.id = asked
      · have other : asked ≠ node.id := by rw [← here]; exact differs
        simp [here, other]
      · simp [here]

end RobotBlocks.Graph
