import RobotBlocks.Proofs.Forest.Spots
import RobotBlocks.Proofs.Graph.Allocation

/-! Which forests are loaded, and what a loaded graph holds: one node for each tree at every level,
hanging from the link at which the forest shows it. -/
namespace RobotBlocks

/-- Every input is under the name of a socket that kind and state declare, and a value socket gets no
more than one tree. -/
def BlockTree.Fits : BlockTree → Prop
  | node id kind _ extra inputs => ∀ name chain, (name, chain) ∈ inputs →
    ∃ socket, (Block.create id kind extra).socket? name = some socket ∧
      (socket.kind = .value → chain.length ≤ 1)

def Spot.AllFit (spots : List Spot) : Prop := ∀ spot ∈ spots, spot.tree.Fits

/-- What the loader asks of a forest. -/
structure Forest.Accepted (forest : Forest) : Prop where
  distinct : forest.ids.Nodup
  early : ∀ id ∈ forest.ids, id.number < BlockId.last.number
  fits : Spot.AllFit forest.spots

namespace Spot

theorem allFit_spots {parent : Option (BlockId × Link)} {below : List BlockTree} {tree : BlockTree} :
    AllFit (tree.spots parent below) ↔ tree.Fits ∧ AllFit (BlockTree.inputSpots tree.id tree.inputs) := by
  rw [AllFit, BlockTree.spots_eq, List.forall_mem_cons]
  rfl

theorem allFit_append {spots more : List Spot} : AllFit (spots ++ more) ↔ AllFit spots ∧ AllFit more :=
  List.forall_mem_append

/-- Where a chain hangs does not matter. -/
theorem AllFit.chain {parent other : Option (BlockId × Link)} {chain : List BlockTree}
    (fits : AllFit (BlockTree.chainSpots parent chain)) : AllFit (BlockTree.chainSpots other chain) := by
  cases chain with
  | nil => exact fits
  | cons tree below =>
    obtain ⟨first, later⟩ := allFit_append.mp fits
    exact allFit_append.mpr ⟨allFit_spots.mpr (allFit_spots.mp first), later⟩

end Spot

namespace Graph

variable {g g' g'' : Graph} {parent child id : BlockId} {hook : Link} {spots more : List Spot}

theorem checkInput_eq_ok {block : Block} {name : String} {count : Nat} :
    checkInput block name count = .ok () ↔
      ∃ socket, block.socket? name = some socket ∧ (socket.kind = .value → count ≤ 1) := by
  unfold checkInput
  cases found : block.socket? name with
  | none => simp
  | some socket =>
    obtain ⟨label, kind⟩ := socket
    cases kind <;> simp

/-! Growth. -/

/-- The nodes of the spots come in, and one creation is queued for each of them. -/
structure Grows (g g' : Graph) (spots : List Spot) : Prop where
  nodes : g'.nodes.Perm (g.nodes ++ spots.map Spot.node)
  events : g'.pending.toList = g.pending.toList ++ spots.map Spot.creation

namespace Grows

theorem refl (g : Graph) : g.Grows g [] := ⟨by simp, by simp⟩

theorem trans (h : g.Grows g' spots) (k : g'.Grows g'' more) : g.Grows g'' (spots ++ more) where
  nodes := by
    rw [List.map_append, ← List.append_assoc]
    exact k.nodes.trans (h.nodes.append_right _)
  events := by rw [k.events, h.events, List.map_append, List.append_assoc]

theorem insertBlock (tree : BlockTree) (below : List BlockTree)
    (h : g.insertBlock tree.block = .ok g') : g.Grows g' [⟨tree, below, none⟩] := by
  obtain ⟨-, -, rfl⟩ := insertBlock_eq_ok.mp h
  constructor
  · exact (insertNode_perm _ g.nodes).trans (List.perm_append_singleton ..).symm
  · simp [place, emit, push, EventQueue.toList_push, Spot.creation, Spot.node]

/-- Linking changes the node of the child alone. -/
theorem nodes_link (parent : BlockId) (hook : Link) {node : Node} {before after : List Node}
    (distinct : g.ids.Nodup) (perm : g.nodes.Perm (before ++ node :: after)) :
    (g.link parent hook node.id).nodes.Perm
      (before ++ { node with parent := some (parent, hook) } :: after) := by
  have ids : ((before ++ node :: after).map Node.id).Nodup := (perm.map Node.id).nodup_iff.mp distinct
  have apart : ∀ other ∈ before ++ after, other.id ≠ node.id := by
    have moved := (List.perm_middle.map Node.id).nodup_iff.mp ids
    exact fun other member same => (List.nodup_cons.mp moved).1 (same ▸ List.mem_map_of_mem member)
  have others : ∀ part ⊆ before ++ after, part.map (fun other => if other.id = node.id then
      { other with parent := some (parent, hook) } else other) = part := by
    intro part within
    exact (List.map_congr_left fun other member => if_neg (apart other (within member))).trans
      part.map_id
  refine (perm.map _).trans (List.Perm.of_eq ?_)
  rw [List.map_append, List.map_cons, if_pos rfl, others before (List.subset_append_left ..),
    others after (List.subset_append_right ..)]

/-- A tree that came in loose hangs from its link. -/
theorem attach {tree : BlockTree} {below : List BlockTree} (sound : g'.Sound)
    (grows : g.Grows g' (tree.spots none below ++ more))
    (h : g'.attach parent hook tree.id = .ok g'') :
    g.Grows g'' (tree.spots (some (parent, hook)) below ++ more) := by
  obtain ⟨-, -, -, -, -, rfl⟩ := attach_eq_ok.mp h
  obtain ⟨nodes, events⟩ := grows
  rw [BlockTree.spots_eq, List.cons_append, List.map_cons] at nodes events
  have linked := nodes_link parent hook sound.tree.distinct nodes
  rw [Spot.id_node] at linked
  rw [BlockTree.spots_eq, List.cons_append]
  exact ⟨linked, events⟩

end Grows

/-! What a successful load tells. -/

mutual

theorem loadTree_grows {g g' : Graph} (sound : g.Sound) (below : List BlockTree) :
    ∀ tree : BlockTree, g.loadTree tree = .ok g' →
      g.Grows g' (tree.spots none below) ∧ Spot.AllFit (tree.spots none below)
  | .node id kind fields extra inputs, h => by
    simp only [Graph.loadTree, bind_eq_ok] at h
    obtain ⟨placed, inserted, rest⟩ := h
    have here := Grows.insertBlock (.node id kind fields extra inputs) below inserted
    have within := sound.insertBlock (BlockTree.block_derived _) inserted
    obtain ⟨grows, own, fits⟩ := loadInputs_grows within _ inputs rest
    rw [BlockTree.id_block] at grows fits
    exact ⟨here.trans grows, Spot.allFit_spots.mpr ⟨own, fits⟩⟩

theorem loadInputs_grows {g g' : Graph} (sound : g.Sound) (block : Block) :
    ∀ inputs : List (String × List BlockTree), g.loadInputs block inputs = .ok g' →
      g.Grows g' (BlockTree.inputSpots block.id inputs) ∧
      (∀ name chain, (name, chain) ∈ inputs →
        ∃ socket, block.socket? name = some socket ∧ (socket.kind = .value → chain.length ≤ 1)) ∧
      Spot.AllFit (BlockTree.inputSpots block.id inputs)
  | [], h => by
    simp only [Graph.loadInputs, pure_eq_ok] at h
    subst h
    exact ⟨.refl g, nofun, nofun⟩
  | (name, []) :: inputs, h => by
    simp only [Graph.loadInputs, Graph.loadChain, bind_eq_ok, pure_eq_ok] at h
    obtain ⟨_, checked, _, rfl, _, rfl, rest⟩ := h
    obtain ⟨grows, own, fits⟩ := loadInputs_grows sound block inputs rest
    refine ⟨grows, ?_, fits⟩
    intro other chain member
    rcases List.mem_cons.mp member with same | later
    · cases same
      exact checkInput_eq_ok.mp checked
    · exact own other chain later
  | (name, head :: rest) :: inputs, h => by
    simp only [Graph.loadInputs, bind_eq_ok] at h
    obtain ⟨_, checked, loaded, chained, attached, hung, remaining⟩ := h
    obtain ⟨first, inner⟩ := loadChain_grows sound (head :: rest) chained
    have inside := Sound.keptByLoading.loadChain sound (head :: rest) chained
    have joined := Grows.attach inside first hung
    obtain ⟨grows, own, fits⟩ := loadInputs_grows (inside.attach hung) block inputs remaining
    refine ⟨joined.trans grows, ?_, ?_⟩
    · intro other chain member
      rcases List.mem_cons.mp member with same | later
      · cases same
        exact checkInput_eq_ok.mp checked
      · exact own other chain later
    · exact Spot.allFit_append.mpr ⟨inner.chain, fits⟩

theorem loadChain_grows {g g' : Graph} (sound : g.Sound) :
    ∀ chain : List BlockTree, g.loadChain chain = .ok g' →
      g.Grows g' (BlockTree.chainSpots none chain) ∧
      Spot.AllFit (BlockTree.chainSpots none chain)
  | [], h => by
    simp only [Graph.loadChain, pure_eq_ok] at h
    subst h
    exact ⟨.refl g, nofun⟩
  | head :: rest, h => by
    simp only [Graph.loadChain, bind_eq_ok] at h
    obtain ⟨loaded, first, below⟩ := h
    obtain ⟨start, fits⟩ := loadTree_grows sound rest head first
    have inside := Sound.keptByLoading.loadTree sound head first
    obtain ⟨grows, others⟩ := loadBelow_grows inside head.id rest below
    exact ⟨start.trans grows, Spot.allFit_append.mpr ⟨fits, others⟩⟩

theorem loadBelow_grows {g g' : Graph} (sound : g.Sound) (above : BlockId) :
    ∀ chain : List BlockTree, g.loadBelow above chain = .ok g' →
      g.Grows g' (BlockTree.chainSpots (some (above, .next)) chain) ∧
      Spot.AllFit (BlockTree.chainSpots (some (above, .next)) chain)
  | [], h => by
    simp only [Graph.loadBelow, pure_eq_ok] at h
    subst h
    exact ⟨.refl g, nofun⟩
  | tree :: rest, h => by
    simp only [Graph.loadBelow, bind_eq_ok] at h
    obtain ⟨loaded, first, attached, hung, below⟩ := h
    obtain ⟨start, fits⟩ := loadTree_grows sound rest tree first
    have inside := Sound.keptByLoading.loadTree sound tree first
    rw [← List.append_nil (tree.spots none rest)] at start
    have joined := Grows.attach inside start hung
    rw [List.append_nil] at joined
    obtain ⟨grows, others⟩ := loadBelow_grows (inside.attach hung) tree.id rest below
    exact ⟨joined.trans grows,
      Spot.allFit_append.mpr ⟨Spot.allFit_spots.mpr (Spot.allFit_spots.mp fits), others⟩⟩

end

/-! What a grown graph holds. -/

namespace Grows

variable (grows : g.Grows g' spots)
include grows

theorem ids : g'.ids.Perm (g.ids ++ spots.map Spot.id) := by
  have perm := grows.nodes.map Node.id
  rw [List.map_append, List.map_map] at perm
  have same : Node.id ∘ Spot.node = Spot.id := funext Spot.id_node
  rwa [same] at perm

theorem contains : g'.contains id = true ↔ g.contains id = true ∨ id ∈ spots.map Spot.id := by
  rw [contains_iff_mem, contains_iff_mem, grows.ids.mem_iff, List.mem_append]

theorem node?_spot (sound : g'.Sound) {spot : Spot} (member : spot ∈ spots) :
    g'.node? spot.id = some spot.node := by
  rw [← spot.id_node]
  exact node?_of_mem sound.tree.distinct
    (grows.nodes.mem_iff.mpr (List.mem_append_right _ (List.mem_map_of_mem member)))

theorem node?_kept (sound : g'.Sound) (present : g.contains id = true) : g'.node? id = g.node? id := by
  obtain ⟨node, found⟩ := Option.isSome_iff_exists.mp present
  rw [found, ← node?_id found]
  exact node?_of_mem sound.tree.distinct
    (grows.nodes.mem_iff.mpr (List.mem_append_left _ (node?_mem found)))

theorem block?_kept (sound : g'.Sound) (present : g.contains id = true) : g'.block? id = g.block? id := by
  rw [block?, grows.node?_kept sound present, block?]

theorem parentLink?_kept (sound : g'.Sound) (present : g.contains id = true) :
    g'.parentLink? id = g.parentLink? id := by
  rw [parentLink?, grows.node?_kept sound present, parentLink?]

/-- A link leads where it led before, or to a spot. -/
theorem parentLink?_cases (sound : g'.Sound) {link : BlockId × Link}
    (linked : g'.parentLink? id = some link) :
    g.parentLink? id = some link ∨ ∃ spot ∈ spots, spot.id = id ∧ spot.parent = some link := by
  rcases grows.contains.mp (contains_of_parentLink linked) with old | new
  · exact .inl (grows.parentLink?_kept sound old ▸ linked)
  · obtain ⟨spot, member, rfl⟩ := List.mem_map.mp new
    rw [parentLink?, grows.node?_spot sound member] at linked
    exact .inr ⟨spot, member, rfl, linked⟩

theorem child?_none (sound : g'.Sound) (whole : g.Sound) (free : g.child? parent hook = none)
    (apart : ∀ spot ∈ spots, spot.parent ≠ some (parent, hook)) : g'.child? parent hook = none := by
  refine sound.tree.child?_eq_none.mpr fun other linked => ?_
  rcases grows.parentLink?_cases sound linked with old | ⟨spot, member, -, hangs⟩
  · exact whole.tree.child?_eq_none.mp free other old
  · exact apart spot member hangs

/-- Climbing from an older block meets older blocks alone. -/
theorem contains_of_climbs (sound : g'.Sound) (whole : g.Sound) (present : g.contains id = true)
    (climbs : g'.Climbs id parent) : g.contains parent = true := by
  induction climbs with
  | refl => exact present
  | tail _ up ih =>
    obtain ⟨link, linked⟩ := Up.exists_link up
    rw [grows.parentLink?_kept sound ih] at linked
    exact whole.tree.contains_parent (up_of_parentLink linked)

/-- A loose tree that came in can be hung from a free place of an older block. -/
theorem attach_ok (sound : g'.Sound) (whole : g.Sound) (declared : g.linkDeclared (parent, hook) = true)
    (free : g.child? parent hook = none) {spot : Spot} (member : spot ∈ spots)
    (loose : spot.parent = none) (fresh : g.contains spot.id = false)
    (apart : ∀ spot ∈ spots, spot.parent ≠ some (parent, hook)) :
    ∃ hung, g'.attach parent hook spot.id = .ok hung := by
  have there : g'.node? spot.id = some spot.node := grows.node?_spot sound member
  have present := contains_of_linkDeclared declared
  refine ⟨_, attach_eq_ok.mpr ⟨?_, ?_, ?_, ?_, grows.child?_none sound whole free apart, rfl⟩⟩
  · cases hook with
    | next => exact grows.contains.mpr (.inl present)
    | socket name => simpa only [linkDeclared, grows.block?_kept sound present] using declared
  · exact grows.contains.mpr (.inr (List.mem_map_of_mem member))
  · rw [← Bool.not_eq_true, sound.tree.isAncestorOrSelf_iff]
    intro climbs
    have old := grows.contains_of_climbs sound whole present climbs
    simp [fresh] at old
  · simp [parent?, parentLink?, there, Spot.node, loose]

end Grows

/-! When a load succeeds. -/

/-- The ids are new to the graph, differ and have successors. -/
structure Room (g : Graph) (ids : List BlockId) : Prop where
  fresh : ∀ id ∈ ids, g.contains id = false
  distinct : ids.Nodup
  early : ∀ id ∈ ids, id.number < BlockId.last.number

theorem Room.left {ids others : List BlockId} (room : g.Room (ids ++ others)) : g.Room ids where
  fresh id member := room.fresh id (List.mem_append_left _ member)
  distinct := (List.nodup_append'.mp room.distinct).1
  early id member := room.early id (List.mem_append_left _ member)

theorem Room.right {ids others : List BlockId} (room : g.Room (ids ++ others))
    (grows : g.Grows g' spots) (same : spots.map Spot.id = ids) : g'.Room others where
  fresh id member := by
    rw [← Bool.not_eq_true, grows.contains, same]
    rintro (old | new)
    · simp [room.fresh id (List.mem_append_right _ member)] at old
    · exact (List.nodup_append'.mp room.distinct).2.2 new member
  distinct := (List.nodup_append'.mp room.distinct).2.1
  early id member := room.early id (List.mem_append_right _ member)

/-- From a block outside of a chain at most the head of the chain hangs. -/
theorem chain_apart {place : Option (BlockId × Link)} {chain : List BlockTree}
    (distinct : BlockTree.DistinctChain chain) (outside : parent ∉ BlockTree.chainIds chain)
    (other : place ≠ some (parent, hook)) :
    ∀ spot ∈ BlockTree.chainSpots place chain, spot.parent ≠ some (parent, hook) := by
  intro spot member linked
  rcases BlockTree.hangsIn_chainSpots place chain distinct member with ⟨here, -⟩ | ⟨up, inside, _, hung, -⟩
  · exact other (here ▸ linked)
  · cases hung.symm.trans linked
    exact outside (BlockTree.ids_chainSpots place chain ▸ List.mem_map_of_mem inside)

theorem tree_apart {place : Option (BlockId × Link)} {below : List BlockTree} {tree : BlockTree}
    (distinct : tree.Distinct) (outside : parent ∉ tree.ids) (other : place ≠ some (parent, hook)) :
    ∀ spot ∈ tree.spots place below, spot.parent ≠ some (parent, hook) := by
  intro spot member linked
  rcases BlockTree.hangsIn_spots place below tree distinct member with rfl | ⟨up, inside, _, hung, -⟩
  · exact other linked
  · cases hung.symm.trans linked
    exact outside (BlockTree.ids_spots place below tree ▸ List.mem_map_of_mem inside)

/-- No statement hangs from a tree that came in just now. -/
theorem Grows.next?_none {place : Option (BlockId × Link)} {below : List BlockTree} {tree : BlockTree}
    (grows : g.Grows g' (tree.spots place below)) (sound : g'.Sound) (whole : g.Sound)
    (distinct : tree.Distinct) (room : g.Room tree.ids) (other : place ≠ some (tree.id, .next)) :
    g'.next? tree.id = none := by
  obtain ⟨id, kind, fields, extra, inputs⟩ := tree
  have own : g.contains id = false := room.fresh id (List.mem_cons_self ..)
  refine grows.child?_none sound whole (whole.tree.child?_of_missing own) ?_
  intro spot member linked
  rcases List.mem_cons.mp member with rfl | inside
  · exact other linked
  · rcases BlockTree.hangsIn_inputSpots id inputs distinct.2.2 inside with
      ⟨name, -, hung⟩ | ⟨up, within, _, hung, -⟩
    · cases hung.symm.trans linked
    · cases hung.symm.trans linked
      exact (List.nodup_cons.mp room.distinct).1
        (BlockTree.ids_inputSpots _ inputs ▸ List.mem_map_of_mem within)

mutual

theorem loadTree_ok {g : Graph} (sound : g.Sound) :
    ∀ tree : BlockTree, tree.Distinct → Spot.AllFit (tree.spots none []) → g.Room tree.ids →
      ∃ g', g.loadTree tree = .ok g'
  | .node id kind fields extra inputs, ⟨_, labels, inner⟩, fits, room => by
    obtain ⟨own, fits⟩ := Spot.allFit_spots.mp fits
    generalize same : BlockTree.node id kind fields extra inputs = tree at own fits
    have named : tree.block.id = id := by rw [← same]; exact Block.id_create ..
    have fresh : g.contains tree.block.id = false := named ▸ room.fresh id (List.mem_cons_self ..)
    have early := room.early id (List.mem_cons_self ..)
    have inserted : g.insertBlock tree.block = .ok (g.place tree.block) :=
      insertBlock_eq_ok.mpr ⟨fresh, named ▸ early, rfl⟩
    have placed := sound.insertBlock tree.block_derived inserted
    have grows := Grows.insertBlock tree [] inserted
    have found : (g.place tree.block).block? tree.block.id = some tree.block := by
      rw [block?_place fresh, if_pos rfl]
    have free : ∀ name ∈ Labelled.labels inputs,
        (g.place tree.block).plugged? tree.block.id name = none := by
      intro name _
      refine grows.child?_none placed sound (sound.tree.child?_of_missing fresh) ?_
      intro spot member linked
      cases List.mem_singleton.mp member
      cases linked
    subst same
    rw [← BlockTree.id_block] at fits
    obtain ⟨g', rest⟩ := loadInputs_ok placed found inputs labels inner own fits free
      (room.right grows rfl)
    exact ⟨g', by simp only [Graph.loadTree, inserted, bind_eq_ok]; exact ⟨_, rfl, rest⟩⟩

theorem loadInputs_ok {g : Graph} (sound : g.Sound) {block : Block}
    (found : g.block? block.id = some block) :
    ∀ inputs : List (String × List BlockTree), (Labelled.labels inputs).Nodup →
      BlockTree.DistinctInputs inputs →
      (∀ name chain, (name, chain) ∈ inputs →
        ∃ socket, block.socket? name = some socket ∧ (socket.kind = .value → chain.length ≤ 1)) →
      Spot.AllFit (BlockTree.inputSpots block.id inputs) →
      (∀ name ∈ Labelled.labels inputs, g.plugged? block.id name = none) →
      g.Room (BlockTree.inputIds inputs) → ∃ g', g.loadInputs block inputs = .ok g'
  | [], _, _, _, _, _, _ => ⟨g, rfl⟩
  | (name, []) :: inputs, labels, ⟨_, inner⟩, own, fits, free, room => by
    have checked := checkInput_eq_ok.mpr (own name [] (List.mem_cons_self ..))
    obtain ⟨g', rest⟩ := loadInputs_ok sound found inputs (List.nodup_cons.mp labels).2 inner
      (fun other chain member => own other chain (List.mem_cons_of_mem _ member)) fits
      (fun other member => free other (List.mem_cons_of_mem _ member)) room
    refine ⟨g', ?_⟩
    simp only [Graph.loadInputs, Graph.loadChain, bind_eq_ok, pure_eq_ok]
    exact ⟨(), checked, g, rfl, g, rfl, rest⟩
  | (name, head :: below) :: inputs, labels, ⟨first, inner⟩, own, fits, free, room => by
    obtain ⟨inside, others⟩ := Spot.allFit_append.mp fits
    have checked := checkInput_eq_ok.mpr (own name (head :: below) (List.mem_cons_self ..))
    have present : g.contains block.id = true := contains_iff_block.mpr ⟨block, found⟩
    have outside : block.id ∉ BlockTree.chainIds (head :: below) := by
      intro member
      simp [room.left.fresh _ member] at present
    obtain ⟨loaded, chained⟩ := loadChain_ok sound (head :: below) first inside.chain room.left
    have start := (loadChain_grows sound (head :: below) chained).1
    have whole := Sound.keptByLoading.loadChain sound (head :: below) chained
    obtain ⟨socket, offered, -⟩ := own name (head :: below) (List.mem_cons_self ..)
    have declared : g.linkDeclared (block.id, .socket name) = true :=
      linkDeclared_socket found (Option.isSome_iff_exists.mpr ⟨socket, offered⟩)
    obtain ⟨hung, attached⟩ := start.attach_ok whole sound declared (free name (List.mem_cons_self ..))
      (BlockTree.head_mem_chainSpots none head below) rfl
      (room.left.fresh _ (List.mem_append_left _ (by obtain ⟨⟩ := head; exact List.mem_cons_self ..)))
      (chain_apart first outside nofun)
    have grows : g.Grows hung (BlockTree.chainSpots (some (block.id, .socket name)) (head :: below)) :=
      Grows.attach whole start attached
    have sound' := whole.attach attached
    have kept : hung.block? block.id = some block := grows.block?_kept sound' present ▸ found
    have later : ∀ other ∈ Labelled.labels inputs, hung.plugged? block.id other = none := by
      intro other member
      refine grows.child?_none sound' sound (free other (List.mem_cons_of_mem _ member))
        (chain_apart first outside ?_)
      rintro ⟨⟩
      exact (List.nodup_cons.mp labels).1 member
    obtain ⟨g', rest⟩ := loadInputs_ok sound' kept inputs (List.nodup_cons.mp labels).2 inner
      (fun other chain member => own other chain (List.mem_cons_of_mem _ member)) others later
      (room.right grows (BlockTree.ids_chainSpots ..))
    refine ⟨g', ?_⟩
    simp only [Graph.loadInputs, bind_eq_ok]
    exact ⟨(), checked, loaded, chained, hung, attached, rest⟩

theorem loadChain_ok {g : Graph} (sound : g.Sound) :
    ∀ chain : List BlockTree, BlockTree.DistinctChain chain →
      Spot.AllFit (BlockTree.chainSpots none chain) → g.Room (BlockTree.chainIds chain) →
      ∃ g', g.loadChain chain = .ok g'
  | [], _, _, _ => ⟨g, rfl⟩
  | head :: rest, ⟨first, later⟩, fits, room => by
    obtain ⟨own, others⟩ := Spot.allFit_append.mp fits
    obtain ⟨loaded, first'⟩ := loadTree_ok sound head first
      (Spot.allFit_spots.mpr (Spot.allFit_spots.mp own)) room.left
    have start := (loadTree_grows sound rest head first').1
    have whole := Sound.keptByLoading.loadTree sound head first'
    have present : loaded.contains head.id = true :=
      start.contains.mpr (.inr (List.mem_map_of_mem (BlockTree.own_mem_spots none rest head)))
    obtain ⟨g', below⟩ := loadBelow_ok whole present (start.next?_none whole sound first room.left nofun)
      rest later others.chain (room.right start (BlockTree.ids_spots ..))
    refine ⟨g', ?_⟩
    simp only [Graph.loadChain, bind_eq_ok]
    exact ⟨loaded, first', below⟩

theorem loadBelow_ok {g : Graph} (sound : g.Sound) {above : BlockId}
    (present : g.contains above = true) (free : g.next? above = none) :
    ∀ chain : List BlockTree, BlockTree.DistinctChain chain →
      Spot.AllFit (BlockTree.chainSpots none chain) → g.Room (BlockTree.chainIds chain) →
      ∃ g', g.loadBelow above chain = .ok g'
  | [], _, _, _ => ⟨g, rfl⟩
  | tree :: rest, ⟨first, later⟩, fits, room => by
    obtain ⟨own, others⟩ := Spot.allFit_append.mp fits
    obtain ⟨loaded, first'⟩ := loadTree_ok sound tree first
      (Spot.allFit_spots.mpr (Spot.allFit_spots.mp own)) room.left
    have start := (loadTree_grows sound rest tree first').1
    have whole := Sound.keptByLoading.loadTree sound tree first'
    have itself : tree.id ∈ tree.ids := by obtain ⟨⟩ := tree; exact List.mem_cons_self ..
    have fresh := room.left.fresh tree.id itself
    have outside : above ∉ tree.ids := by
      intro member
      simp [room.left.fresh _ member] at present
    obtain ⟨hung, attached⟩ := start.attach_ok whole sound (linkDeclared_next present) free
      (BlockTree.own_mem_spots none rest tree) rfl fresh (tree_apart first outside nofun)
    have grows : g.Grows hung (tree.spots (some (above, .next)) rest) := by
      rw [← List.append_nil (tree.spots none rest)] at start
      simpa using Grows.attach whole start attached
    have sound' := whole.attach attached
    have apart : some (above, Link.next) ≠ some (tree.id, .next) := by
      rintro ⟨⟩
      exact outside itself
    have there : hung.contains tree.id = true :=
      grows.contains.mpr (.inr (List.mem_map_of_mem (BlockTree.own_mem_spots _ rest tree)))
    obtain ⟨g', below⟩ := loadBelow_ok sound' there (grows.next?_none sound' sound first room.left apart)
      rest later others.chain (room.right grows (BlockTree.ids_spots ..))
    refine ⟨g', ?_⟩
    simp only [Graph.loadBelow, bind_eq_ok]
    exact ⟨loaded, first', hung, attached, below⟩

end

/-! Whole forests. -/

theorem foldlM_loadChain_grows (sound : g.Sound) (chains : List (List BlockTree))
    (h : chains.foldlM Graph.loadChain g = .ok g') :
    g.Grows g' (chains.flatMap (BlockTree.chainSpots none)) ∧
      Spot.AllFit (chains.flatMap (BlockTree.chainSpots none)) := by
  induction chains generalizing g with
  | nil =>
    have same := pure_eq_ok.mp h
    exact ⟨same ▸ .refl g, nofun⟩
  | cons chain chains ih =>
    simp only [List.foldlM_cons, bind_eq_ok] at h
    obtain ⟨loaded, first, rest⟩ := h
    obtain ⟨start, fits⟩ := loadChain_grows sound chain first
    obtain ⟨grows, others⟩ := ih (Sound.keptByLoading.loadChain sound chain first) rest
    rw [List.flatMap_cons]
    exact ⟨start.trans grows, Spot.allFit_append.mpr ⟨fits, others⟩⟩

theorem foldlM_loadChain_ok (sound : g.Sound) (chains : List (List BlockTree))
    (distinct : ∀ chain ∈ chains, BlockTree.DistinctChain chain)
    (fits : Spot.AllFit (chains.flatMap (BlockTree.chainSpots none)))
    (room : g.Room (chains.flatMap BlockTree.chainIds)) :
    ∃ g', chains.foldlM Graph.loadChain g = .ok g' := by
  induction chains generalizing g with
  | nil => exact ⟨g, rfl⟩
  | cons chain chains ih =>
    rw [List.flatMap_cons] at fits room
    obtain ⟨here, others⟩ := Spot.allFit_append.mp fits
    have own := distinct chain (List.mem_cons_self ..)
    obtain ⟨loaded, first⟩ := loadChain_ok sound chain own here room.left
    have grows := (loadChain_grows sound chain first).1
    obtain ⟨g', rest⟩ := ih (Sound.keptByLoading.loadChain sound chain first)
      (fun other member => distinct other (List.mem_cons_of_mem _ member)) others
      (room.right grows (BlockTree.ids_chainSpots ..))
    exact ⟨g', by simp only [List.foldlM_cons, bind_eq_ok]; exact ⟨loaded, first, rest⟩⟩

variable {forest : Forest}

theorem ofForest_grows (h : ofForest forest = .ok g) :
    Graph.empty.Grows g forest.spots ∧ Spot.AllFit forest.spots :=
  foldlM_loadChain_grows .empty forest.chains h

theorem early_ofForest (h : ofForest forest = .ok g) : ∀ id ∈ g.ids, id.number < BlockId.last.number := by
  have kept : KeptByLoading fun g => ∀ id ∈ g.ids, id.number < BlockId.last.number := by
    constructor
    · intro g g' tree early inserted id member
      obtain ⟨-, own, rfl⟩ := insertBlock_eq_ok.mp inserted
      rcases List.mem_cons.mp ((ids_place _ tree.block).mem_iff.mp member) with rfl | old
      · exact own
      · exact early id old
    · intro g g' parent child hook early attached
      obtain ⟨-, -, -, -, -, rfl⟩ := attach_eq_ok.mp attached
      rwa [(Moves.link g parent hook child).ids]
  exact kept.ofForest nofun h

/-- The ids of a loaded graph are those of the forest. -/
theorem ids_ofForest (h : ofForest forest = .ok g) : g.ids.Perm forest.ids := by
  have ids := (ofForest_grows h).1.ids
  rwa [forest.ids_spots] at ids

theorem size_ofForest (h : ofForest forest = .ok g) : g.size = forest.size := by
  have counted := (ids_ofForest h).length_eq
  rwa [Graph.ids, List.length_map] at counted

/-- A forest is loaded exactly when it is accepted: the checks of a link refuse nothing more. -/
theorem ofForest_ok_iff (distinct : forest.Distinct) :
    (∃ g, ofForest forest = .ok g) ↔ forest.Accepted := by
  constructor
  · rintro ⟨g, loaded⟩
    have ids := ids_ofForest loaded
    refine ⟨ids.nodup_iff.mp (Sound.ofForest loaded).tree.distinct, ?_, (ofForest_grows loaded).2⟩
    exact fun id member => early_ofForest loaded id (ids.mem_iff.mpr member)
  · intro accepted
    exact foldlM_loadChain_ok .empty forest.chains distinct accepted.fits
      ⟨fun _ _ => rfl, accepted.distinct, accepted.early⟩

end Graph
end RobotBlocks
