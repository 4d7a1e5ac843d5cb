import RobotBlocks.Proofs.Graph.Moves

/-! Creating, deleting and changing blocks keeps the invariant of a graph. -/
namespace RobotBlocks.Graph

variable {g g' : Graph} {id other parent child : BlockId} {block : Block}

/-! Creation. -/

section Place

variable (fresh : g.contains block.id = false)
include fresh

theorem fresh_of_mem {node : Node} (h : node ∈ g.nodes) : node.id ≠ block.id := by
  intro same
  have present : g.contains node.id = true := contains_iff_mem.mpr (List.mem_map_of_mem h)
  simp [same, fresh] at present

theorem node?_place (asked : BlockId) :
    (g.place block).node? asked = if asked = block.id then some { block } else g.node? asked :=
  find?_insertNode { block } (fun _ => fresh_of_mem fresh) asked

theorem block?_place (asked : BlockId) :
    (g.place block).block? asked = if asked = block.id then some block else g.block? asked := by
  rw [block?, node?_place fresh]
  split <;> rfl

theorem parentLink?_place (asked : BlockId) :
    (g.place block).parentLink? asked = g.parentLink? asked := by
  rw [parentLink?, node?_place fresh]
  split
  · next here => rw [here, parentLink?_of_missing fresh]; rfl
  · rfl

theorem Tree.place (tree : g.Tree) : (g.place block).Tree where
  ascending := by
    have nodes := insertNode_ascending { block } (fun _ => fresh_of_mem fresh)
      (by simpa [ids, List.pairwise_map] using tree.ascending)
    exact List.pairwise_map.mpr nodes
  declared h := by
    rw [parentLink?_place fresh] at h
    have offered := tree.declared h
    have present := contains_of_linkDeclared offered
    have apart : ∀ {parent}, g.contains parent = true → parent ≠ block.id := by
      rintro parent present rfl
      simp [fresh] at present
    rename_i link
    obtain ⟨parent, link⟩ := link
    have same : (g.place block).block? parent = g.block? parent := by
      rw [block?_place fresh, if_neg (apart present)]
    cases link with
    | next => exact contains_iff_block.mpr (same ▸ contains_iff_block.mp present)
    | socket name => simpa only [linkDeclared, same] using offered
  unshared h k := by
    rw [parentLink?_place fresh] at h k
    exact tree.unshared h k
  grounded := by
    have same : (g.place block).Up = g.Up := by
      funext child parent
      simp only [Up, parent?, parentLink?_place fresh]
    exact same ▸ tree.grounded

theorem Sound.place (sound : g.Sound) (derived : block.Derived) : (g.place block).Sound := by
  refine ⟨sound.tree.place fresh, ?_⟩
  intro id found here
  rw [block?_place fresh] at here
  split at here
  · cases here
    exact derived
  · exact sound.fitted here

end Place

theorem insertBlock_eq_ok : g.insertBlock block = .ok g' ↔
    g.contains block.id = false ∧ block.id.number < BlockId.last.number ∧ g' = g.place block := by
  unfold insertBlock
  by_cases present : g.contains block.id = true
  · simp [present]
  · by_cases late : BlockId.last.number ≤ block.id.number
    · simp [present, late]
    · have early : block.id.number < BlockId.last.number := Nat.lt_of_not_le late
      simp [present, late, early, eq_comm]

theorem Tree.insertBlock (tree : g.Tree) (h : g.insertBlock block = .ok g') : g'.Tree := by
  obtain ⟨fresh, -, rfl⟩ := insertBlock_eq_ok.mp h
  exact tree.place fresh

theorem Sound.insertBlock (sound : g.Sound) (derived : block.Derived)
    (h : g.insertBlock block = .ok g') : g'.Sound := by
  obtain ⟨fresh, -, rfl⟩ := insertBlock_eq_ok.mp h
  exact sound.place fresh derived

/-- The search passes numbers in use only, and it ends on one only when its tries are spent. -/
theorem lowestFree_spec (g : Graph) (tries start : Nat) :
    (∀ n, start ≤ n → n < g.lowestFree tries start → g.contains ⟨n⟩ = true) ∧
    (g.contains ⟨g.lowestFree tries start⟩ = true → g.lowestFree tries start = start + tries) := by
  have none_before : ∀ start n, start ≤ n → n < start → g.contains ⟨n⟩ = true :=
    fun _ _ from_start passed => absurd passed (Nat.not_lt_of_le from_start)
  induction tries generalizing start with
  | zero => exact ⟨none_before start, fun _ => rfl⟩
  | succ tries ih =>
    obtain ⟨passes, spent⟩ := ih (start + 1)
    unfold lowestFree
    split
    · next present =>
      refine ⟨fun n from_start passed => ?_, fun taken => ?_⟩
      · rcases Nat.eq_or_lt_of_le from_start with rfl | later
        · exact present
        · exact passes n later passed
      · rw [spent taken]
        omega
    · next free => exact ⟨none_before start, fun taken => absurd taken free⟩

/-- There are at least as many blocks as numbers in use from zero on. -/
theorem le_size {count : Nat} (used : ∀ n < count, g.contains ⟨n⟩ = true) : count ≤ g.size := by
  have subset : (List.range count).map BlockId.mk ⊆ g.ids := by
    intro id member
    obtain ⟨n, bound, rfl⟩ := List.mem_map.mp member
    exact contains_iff_mem.mp (used n (List.mem_range.mp bound))
  have distinct : ((List.range count).map BlockId.mk).Nodup :=
    List.nodup_range.map fun _ _ same => congrArg BlockId.number same
  have bound := (distinct.subperm subset).length_le
  simpa [ids, size] using bound

/-- One more number than there are blocks is enough to find a free one. -/
theorem freshId_fresh (g : Graph) : g.contains g.freshId = false := by
  unfold freshId
  split
  · rw [← Bool.not_eq_true]
    intro taken
    obtain ⟨passes, spent⟩ := g.lowestFree_spec g.size 0
    have more : g.size + 1 ≤ g.size := le_size fun n bound => by
      rcases Nat.lt_or_eq_of_le (Nat.le_of_lt_succ bound) with passed | rfl
      · exact passes n (Nat.zero_le n) (by rw [spent taken]; omega)
      · simpa [spent taken] using taken
    exact Nat.not_succ_le_self _ more
  · next free => simpa using free

theorem block?_addBlock (kind : Kind) (extra : ExtraState) (asked : BlockId) : (g.addBlock kind extra).2.block? asked
    = if asked = g.freshId then some (.create g.freshId kind extra) else g.block? asked := by
  rw [addBlock, block?_place (by simpa using g.freshId_fresh), Block.id_create]

theorem parentLink?_addBlock (kind : Kind) (extra : ExtraState) (asked : BlockId) :
    (g.addBlock kind extra).2.parentLink? asked = g.parentLink? asked :=
  parentLink?_place (by simpa using g.freshId_fresh) asked

theorem Tree.addBlock (tree : g.Tree) (kind : Kind) (extra : ExtraState) : (g.addBlock kind extra).2.Tree :=
  tree.place (by simpa using g.freshId_fresh)

theorem Sound.addBlock (sound : g.Sound) (kind : Kind) (extra : ExtraState) :
    (g.addBlock kind extra).2.Sound :=
  sound.place (by simpa using g.freshId_fresh) (Block.create_derived g.freshId kind extra)

/-! Deletion. -/

theorem removeNode_of_missing (missing : g.contains id = false) : g.removeNode id = g := by
  have none : g.block? id = none := by simpa [contains, block?] using missing
  simp [removeNode, none]

/-- The links that are left when a block is taken out. -/
def orphan (id : BlockId) (node : Node) : Node :=
  if node.parent.any fun (parent, _) => parent = id then { node with parent := none } else node

theorem id_orphan (node : Node) : (orphan id node).id = node.id := by
  unfold orphan
  split <;> rfl

theorem parent_orphan (node : Node) {link : BlockId × Link} :
    (orphan id node).parent = some link ↔ node.parent = some link ∧ link.1 ≠ id := by
  unfold orphan
  cases linked : node.parent with
  | none => simp [linked]
  | some place =>
    by_cases owner : place.1 = id
    · simp only [Option.any_some, owner, decide_true, if_true, Option.some.injEq]
      constructor
      · intro none; cases none
      · rintro ⟨rfl, apart⟩; exact absurd owner apart
    · simp only [Option.any_some, owner, decide_false, Bool.false_eq_true, if_false, linked,
        Option.some.injEq]
      constructor
      · rintro rfl; exact ⟨rfl, owner⟩
      · exact fun h => h.1

theorem nodes_removeNode (g : Graph) (id : BlockId) :
    (g.removeNode id).nodes
      = if g.contains id then (g.nodes.filter fun node => node.id ≠ id).map (orphan id)
        else g.nodes := by
  cases present : g.contains id with
  | false => simp [removeNode_of_missing present]
  | true =>
    obtain ⟨block, found⟩ := contains_iff_block.mp present
    simp only [removeNode, found, if_true]
    rfl

theorem node?_removeNode (present : g.contains id = true) (asked : BlockId) :
    (g.removeNode id).node? asked
      = if asked = id then none else (g.node? asked).map (orphan id) := by
  rw [node?, nodes_removeNode, if_pos present, List.find?_map]
  have test : ((fun node : Node => decide (node.id = asked)) ∘ orphan id)
      = fun node : Node => decide (node.id = asked) := by
    funext node
    simp [id_orphan]
  rw [test, List.find?_filter]
  by_cases here : asked = id
  · subst here
    rw [if_pos rfl, Option.map_eq_none_iff, List.find?_eq_none]
    simp
  · rw [if_neg here, node?]
    congr 2
    funext node
    by_cases found : node.id = asked <;> simp [found, here]

theorem ids_removeNode (g : Graph) (id : BlockId) :
    (g.removeNode id).ids = g.ids.filter fun other => other ≠ id := by
  cases present : g.contains id with
  | false =>
    rw [removeNode_of_missing present, eq_comm, List.filter_eq_self]
    intro other member
    have there := contains_iff_mem.mpr member
    simpa using fun same : other = id => by simp [← same, there] at present
  | true =>
    rw [ids, nodes_removeNode, if_pos present, List.map_map, ids, List.filter_map]
    congr 1
    funext node
    exact id_orphan node

theorem block?_removeNode (g : Graph) (id asked : BlockId) :
    (g.removeNode id).block? asked = if asked = id then none else g.block? asked := by
  cases present : g.contains id with
  | false =>
    rw [removeNode_of_missing present]
    split
    · next here =>
      subst here
      simpa [contains, block?] using present
    · rfl
  | true =>
    rw [block?, node?_removeNode present]
    split
    · rfl
    · cases found : g.node? asked with
      | none => simp [block?, found]
      | some node =>
        simp only [block?, found, Option.map_some]
        unfold orphan
        split <;> rfl

/-- Links into the block that is taken out and links from it go, all others stay. -/
theorem parentLink?_removeNode (present : g.contains id = true) {link : BlockId × Link} :
    (g.removeNode id).parentLink? other = some link ↔
      other ≠ id ∧ link.1 ≠ id ∧ g.parentLink? other = some link := by
  rw [parentLink?, node?_removeNode present]
  by_cases here : other = id
  · simp [here]
  · cases found : g.node? other with
    | none => simp [parentLink?, found]
    | some node => simp [here, parentLink?, found, parent_orphan, and_comm]

theorem up_of_removeNode (h : (g.removeNode id).Up child parent) : g.Up child parent := by
  cases present : g.contains id with
  | false => exact removeNode_of_missing present ▸ h
  | true =>
    obtain ⟨link, linked⟩ := h.exists_link
    exact up_of_parentLink ((parentLink?_removeNode present).mp linked).2.2

theorem Tree.removeNode (tree : g.Tree) (id : BlockId) : (g.removeNode id).Tree := by
  cases present : g.contains id with
  | false => exact (removeNode_of_missing present).symm ▸ tree
  | true =>
    refine ⟨?_, ?_, ?_, Subrelation.wf up_of_removeNode tree.grounded⟩
    · rw [ids_removeNode]
      exact tree.ascending.filter _
    · intro child link h
      obtain ⟨-, apart, linked⟩ := (parentLink?_removeNode present).mp h
      obtain ⟨parent, hook⟩ := link
      have same : (g.removeNode id).block? parent = g.block? parent := by
        rw [block?_removeNode, if_neg apart]
      have offered := tree.declared linked
      cases hook with
      | next => exact contains_iff_block.mpr (same ▸ contains_iff_block.mp offered)
      | socket name => simpa only [linkDeclared, same] using offered
    · intro a b link h k
      obtain ⟨-, -, ha⟩ := (parentLink?_removeNode present).mp h
      obtain ⟨-, -, hb⟩ := (parentLink?_removeNode present).mp k
      exact tree.unshared ha hb

theorem Sound.removeNode (sound : g.Sound) (id : BlockId) : (g.removeNode id).Sound := by
  refine ⟨sound.tree.removeNode id, fun {asked block} found => ?_⟩
  rw [block?_removeNode] at found
  split at found
  · simp at found
  · exact sound.fitted found

theorem block?_foldl_removeNode (g : Graph) (doomed : List BlockId) (asked : BlockId) :
    (doomed.foldl removeNode g).block? asked
      = if asked ∈ doomed then none else g.block? asked := by
  induction doomed generalizing g with
  | nil => simp
  | cons first doomed ih =>
    rw [List.foldl_cons, ih, block?_removeNode]
    by_cases later : asked ∈ doomed <;> by_cases here : asked = first <;> simp [later, here]

theorem deleteBlock_eq_ok {heal : Bool} {doomed : List BlockId} :
    g.deleteBlock id heal = .ok (doomed, g') ↔ g.contains id = true ∧
      doomed = (g.detach id heal).walk id ∧
      g' = doomed.foldl Graph.removeNode (g.detach id heal) := by
  simp only [deleteBlock, bind_eq_ok, get_eq_ok, pure_eq_ok, Prod.mk.injEq, contains_iff_block]
  constructor
  · rintro ⟨block, found, rfl, rfl⟩
    exact ⟨⟨block, found⟩, rfl, rfl⟩
  · rintro ⟨⟨block, found⟩, rfl, rfl⟩
    exact ⟨block, found, rfl, rfl⟩

theorem Tree.foldl_removeNode (tree : g.Tree) (doomed : List BlockId) :
    (doomed.foldl Graph.removeNode g).Tree := by
  induction doomed generalizing g with
  | nil => exact tree
  | cons id doomed ih => exact ih (tree.removeNode id)

theorem Sound.foldl_removeNode (sound : g.Sound) (doomed : List BlockId) :
    (doomed.foldl Graph.removeNode g).Sound := by
  induction doomed generalizing g with
  | nil => exact sound
  | cons id doomed ih => exact ih (sound.removeNode id)

theorem Tree.deleteBlock {heal : Bool} {doomed : List BlockId} (tree : g.Tree)
    (h : g.deleteBlock id heal = .ok (doomed, g')) : g'.Tree := by
  obtain ⟨-, -, rfl⟩ := deleteBlock_eq_ok.mp h
  exact (tree.detach id heal).foldl_removeNode doomed

theorem Sound.deleteBlock {heal : Bool} {doomed : List BlockId} (sound : g.Sound)
    (h : g.deleteBlock id heal = .ok (doomed, g')) : g'.Sound := by
  obtain ⟨-, -, rfl⟩ := deleteBlock_eq_ok.mp h
  exact (sound.detach id heal).foldl_removeNode doomed

/-! Content. -/

/-- A changed block keeps its id, and the sockets that hold something. -/
theorem Tree.updateBlock (tree : g.Tree) (id : BlockId) (change : Block → Block)
    (keeps : ∀ block, block.id = id → (change block).id = id)
    (offers : ∀ {block child name}, g.block? id = some block →
      g.parentLink? child = some (id, .socket name) → block.hasSocket name = true →
      (change block).hasSocket name = true) : (g.updateBlock id change).Tree := by
  have blocks := block?_updateBlock g id change keeps
  refine tree.transport (ids_updateBlock g id change keeps)
    (parentLink?_updateBlock g id change keeps) fun {child link} linked => ?_
  obtain ⟨parent, hook⟩ := link
  have offered := tree.declared linked
  cases hook with
  | next =>
    simp only [linkDeclared] at offered ⊢
    rwa [contains_updateBlock g id change keeps]
  | socket name =>
    obtain ⟨block, found, declared⟩ := (Option.any_eq_true _ _).mp offered
    by_cases here : parent = id
    · subst here
      simp [linkDeclared, blocks, found, offers found linked declared]
    · simp [linkDeclared, blocks, here, found, declared]

theorem setField_cases {name value : String} {old : Option String}
    (h : g.setField id name value = .ok (old, g')) :
    ∃ block, g.block? id = some block ∧ old = block.field? name ∧
      g' = (let edited := g.updateBlock id fun block =>
              { block with fields := block.fields.put name value }
            if old = some value then edited
            else edited.emit id block.kind (.fieldChanged name old value)) := by
  simp only [setField, bind_eq_ok, get_eq_ok] at h
  obtain ⟨block, found, h⟩ := h
  refine ⟨block, found, ?_⟩
  split at h
  · next same =>
    obtain ⟨rfl, rfl⟩ := Prod.mk.inj (pure_eq_ok.mp h)
    simp [same]
  · next differs =>
    obtain ⟨rfl, rfl⟩ := Prod.mk.inj (pure_eq_ok.mp h)
    simp [differs]

theorem setField_ok (name value : String) (found : g.block? id = some block) :
    ∃ old g', g.setField id name value = .ok (old, g') := by
  simp only [setField, get_eq_ok.mpr found, bind, Except.bind, pure, Except.pure]
  split <;> exact ⟨_, _, rfl⟩

theorem block?_setField {name value : String} {old : Option String}
    (h : g.setField id name value = .ok (old, g')) (asked : BlockId) :
    g'.block? asked = if asked = id then
        (g.block? asked).map fun block => { block with fields := block.fields.put name value }
      else g.block? asked := by
  obtain ⟨block, -, -, rfl⟩ := setField_cases h
  have edited := block?_updateBlock g id
    (fun block => { block with fields := block.fields.put name value }) (fun _ same => same) asked
  dsimp only
  split <;> exact edited

theorem parentLink?_setField {name value : String} {old : Option String}
    (h : g.setField id name value = .ok (old, g')) (asked : BlockId) :
    g'.parentLink? asked = g.parentLink? asked := by
  obtain ⟨block, -, -, rfl⟩ := setField_cases h
  have edited := parentLink?_updateBlock g id
    (fun block => { block with fields := block.fields.put name value }) (fun _ same => same) asked
  dsimp only
  split <;> exact edited

theorem Tree.setField {name value : String} {old : Option String} (tree : g.Tree)
    (h : g.setField id name value = .ok (old, g')) : g'.Tree := by
  obtain ⟨block, -, -, rfl⟩ := setField_cases h
  have edited := tree.updateBlock id (fun block => { block with fields := block.fields.put name value })
    (fun _ same => same) fun _ _ offered => offered
  dsimp only
  split
  · exact edited
  · exact edited.push _

theorem Sound.setField {name value : String} {old : Option String} (sound : g.Sound)
    (h : g.setField id name value = .ok (old, g')) : g'.Sound := by
  refine ⟨sound.tree.setField h, fun {asked after} found => ?_⟩
  rw [block?_setField h] at found
  split at found
  · obtain ⟨before, there, rfl⟩ := Option.map_eq_some_iff.mp found
    exact (sound.fitted there).put name value
  · exact sound.fitted found

theorem setExtra_eq_ok {extra : ExtraState} : g.setExtra id extra = .ok g' ↔
    ∃ block, g.block? id = some block ∧
      (∀ socket ∈ block.sockets, (g.plugged? id socket.name).isSome →
        (block.withExtra extra).hasSocket socket.name = true) ∧
      g' = (g.updateBlock id fun _ => block.withExtra extra).emit id block.kind .extraChanged := by
  simp only [setExtra, bind_eq_ok, get_eq_ok]
  refine exists_congr fun block => and_congr_right fun _ => ?_
  cases lost : block.sockets.find? fun socket =>
      !(block.withExtra extra).hasSocket socket.name && (g.plugged? id socket.name).isSome with
  | none =>
    have kept : ∀ socket ∈ block.sockets, (g.plugged? id socket.name).isSome →
        (block.withExtra extra).hasSocket socket.name = true := by
      intro socket member plugged
      simpa [plugged] using List.find?_eq_none.mp lost socket member
    simp only [pure_eq_ok]
    exact ⟨fun same => ⟨kept, same.symm⟩, fun h => h.2.symm⟩
  | some socket =>
    have member := List.mem_of_find?_eq_some lost
    have gone := List.find?_some lost
    simp only [throw_ne_ok, false_iff]
    rintro ⟨kept, -⟩
    simp only [Bool.and_eq_true, Bool.not_eq_true'] at gone
    simp [kept socket member gone.2] at gone

@[simp] theorem id_withExtra (block : Block) (extra : ExtraState) :
    (block.withExtra extra).id = block.id := by
  simp [Block.withExtra]

theorem Tree.setExtra {extra : ExtraState} (tree : g.Tree) (h : g.setExtra id extra = .ok g') : g'.Tree := by
  obtain ⟨block, found, kept, rfl⟩ := setExtra_eq_ok.mp h
  have named := block?_id found
  refine (tree.updateBlock id _ (fun _ _ => by simpa using named) ?_).push _
  intro other child name same linked offered
  obtain ⟨socket, own⟩ := Option.isSome_iff_exists.mp offered
  have member := List.mem_of_find?_eq_some own
  have socketName : socket.name = name := by simpa using List.find?_some own
  cases found.symm.trans same
  rw [← socketName]
  apply kept socket member
  rw [socketName, plugged?, tree.child?_eq_some.mpr linked]
  rfl

theorem block?_setExtra {extra : ExtraState} (h : g.setExtra id extra = .ok g')
    (asked : BlockId) :
    g'.block? asked
      = if asked = id then (g.block? asked).map (·.withExtra extra) else g.block? asked := by
  obtain ⟨block, found, -, rfl⟩ := setExtra_eq_ok.mp h
  have named := block?_id found
  rw [emit, block?_push, block?_updateBlock g id _ fun _ _ => by simpa using named]
  split
  · next here => simp [here, found]
  · rfl

theorem Sound.setExtra {extra : ExtraState} (sound : g.Sound) (h : g.setExtra id extra = .ok g') : g'.Sound := by
  refine ⟨sound.tree.setExtra h, fun {asked after} found => ?_⟩
  rw [block?_setExtra h] at found
  split at found
  · obtain ⟨before, there, rfl⟩ := Option.map_eq_some_iff.mp found
    exact (sound.fitted there).withExtra extra
  · exact sound.fitted found

theorem parentLink?_setExtra {extra : ExtraState} (h : g.setExtra id extra = .ok g')
    (asked : BlockId) : g'.parentLink? asked = g.parentLink? asked := by
  obtain ⟨block, found, -, rfl⟩ := setExtra_eq_ok.mp h
  have named := block?_id found
  rw [emit, parentLink?_push, parentLink?_updateBlock g id _ fun _ _ => by simpa using named]

theorem child?_setField {name value : String} {old : Option String} (h : g.setField id name value = .ok (old, g'))
    (parent : BlockId) (hook : Link) : g'.child? parent hook = g.child? parent hook := by
  obtain ⟨block, -, -, rfl⟩ := setField_cases h
  have edited := child?_updateBlock g id
    (fun block => { block with fields := block.fields.put name value }) (fun _ same => same) parent hook
  dsimp only
  split <;> exact edited

theorem child?_setExtra {extra : ExtraState} (h : g.setExtra id extra = .ok g') (parent : BlockId) (hook : Link) :
    g'.child? parent hook = g.child? parent hook := by
  obtain ⟨block, found, -, rfl⟩ := setExtra_eq_ok.mp h
  have named := block?_id found
  exact child?_updateBlock g id (fun _ => block.withExtra extra) (fun _ _ => by simpa using named) parent hook

theorem setSignature_cases {changes : List ParamChange}
    (h : g.setSignature id changes = .ok g') :
    ∃ block, g.block? id = some block ∧ block.extra.params?.isSome = true ∧
      g' = (g.updateBlock id fun current =>
        ({ current with extra := block.extra.withParams (changes.map (·.param)) } : Block).showParams
        ).emit id block.kind (.signatureChanged changes) := by
  simp only [setSignature, bind_eq_ok, get_eq_ok, throw_bind, refuse_eq_ok, pure_eq_ok] at h
  obtain ⟨block, found, declares, same⟩ := h
  exact ⟨block, found, by simpa [Option.isSome_iff_ne_none] using declares, same.symm⟩

theorem block?_setSignature {changes : List ParamChange}
    (h : g.setSignature id changes = .ok g') (asked : BlockId) :
    g'.block? asked = if asked = id then
        (g.block? asked).map fun block => ({ block with
          extra := block.extra.withParams (changes.map (·.param)) } : Block).showParams
      else g.block? asked := by
  obtain ⟨block, found, -, rfl⟩ := setSignature_cases h
  rw [emit, block?_push, block?_updateBlock g id _ fun _ same => by simpa using same]
  by_cases here : asked = id
  · simp [here, found]
  · simp [here]

theorem parentLink?_setSignature {changes : List ParamChange} (h : g.setSignature id changes = .ok g')
    (asked : BlockId) : g'.parentLink? asked = g.parentLink? asked := by
  obtain ⟨block, -, -, rfl⟩ := setSignature_cases h
  rw [emit, parentLink?_push, parentLink?_updateBlock g id _ fun _ same => by simpa using same]

theorem Tree.setSignature {changes : List ParamChange} (tree : g.Tree)
    (h : g.setSignature id changes = .ok g') : g'.Tree := by
  obtain ⟨block, found, -, rfl⟩ := setSignature_cases h
  refine (tree.updateBlock id _ (fun _ same => by simpa using same) ?_).push _
  intro current child name _ _ offered
  simpa [Block.hasSocket, Block.socket?] using offered

theorem Sound.setSignature {changes : List ParamChange} (sound : g.Sound)
    (h : g.setSignature id changes = .ok g') : g'.Sound := by
  refine ⟨sound.tree.setSignature h, fun {asked after} found => ?_⟩
  rw [block?_setSignature h] at found
  split at found
  · obtain ⟨before, there, rfl⟩ := Option.map_eq_some_iff.mp found
    exact (sound.fitted there).withParams _
  · exact sound.fitted found

theorem setWarning_eq_ok {warning : Option String} : g.setWarning id warning = .ok g' ↔
    g.contains id = true ∧ g' = g.updateBlock id fun block => { block with warning } := by
  simp only [setWarning, bind_eq_ok, get_eq_ok, pure_eq_ok, contains_iff_block]
  constructor
  · rintro ⟨block, found, rfl⟩
    exact ⟨⟨block, found⟩, rfl⟩
  · rintro ⟨⟨block, found⟩, rfl⟩
    exact ⟨block, found, rfl⟩

theorem block?_setWarning {warning : Option String} (h : g.setWarning id warning = .ok g') (asked : BlockId) :
    g'.block? asked
      = if asked = id then (g.block? asked).map fun block => { block with warning } else g.block? asked := by
  obtain ⟨-, rfl⟩ := setWarning_eq_ok.mp h
  exact block?_updateBlock g id (fun block => { block with warning }) (fun _ same => same) asked

theorem parentLink?_setWarning {warning : Option String} (h : g.setWarning id warning = .ok g')
    (asked : BlockId) : g'.parentLink? asked = g.parentLink? asked := by
  obtain ⟨-, rfl⟩ := setWarning_eq_ok.mp h
  exact parentLink?_updateBlock g id (fun block => { block with warning }) (fun _ same => same) asked

theorem Tree.setWarning {warning : Option String} (tree : g.Tree) (h : g.setWarning id warning = .ok g') :
    g'.Tree := by
  obtain ⟨-, rfl⟩ := setWarning_eq_ok.mp h
  exact tree.updateBlock id _ (fun _ same => same) fun _ _ offered => offered

theorem Sound.setWarning {warning : Option String} (sound : g.Sound)
    (h : g.setWarning id warning = .ok g') : g'.Sound := by
  refine ⟨sound.tree.setWarning h, fun {asked after} found => ?_⟩
  rw [block?_setWarning h] at found
  split at found
  · obtain ⟨before, there, rfl⟩ := Option.map_eq_some_iff.mp found
    exact (sound.fitted there).warn warning
  · exact sound.fitted found

end RobotBlocks.Graph
