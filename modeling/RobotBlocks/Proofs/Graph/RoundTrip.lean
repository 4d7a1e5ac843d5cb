import RobotBlocks.Proofs.Graph.History

/-! Storing a graph and loading it again. Loading places the blocks in the order of a walk, each
block loose at first, and hangs it from the link that it had once its tree is complete. -/
namespace RobotBlocks

/-- A block as it is stored: warnings are not part of the document. -/
def Block.cleared (block : Block) : Block := { block with warning := none }

@[simp] theorem Block.kind_cleared (block : Block) : block.cleared.kind = block.kind := rfl
@[simp] theorem Block.extra_cleared (block : Block) : block.cleared.extra = block.extra := rfl

@[simp] theorem Block.field?_cleared (block : Block) (name : String) :
    block.cleared.field? name = block.field? name := rfl

@[simp] theorem Block.fieldD_cleared (block : Block) (name : String) :
    block.cleared.fieldD name = block.fieldD name := rfl

theorem Block.Derived.cleared_eq {block : Block} (derived : block.Derived)
    (inputs : List (String × List BlockTree)) :
    (BlockTree.node block.id block.kind block.fields block.extra inputs).block = block.cleared := by
  have fields := derived.rebuild
  have sockets := derived.sockets
  obtain ⟨id, kind, fields', sockets', extra, warning⟩ := block
  simp only at fields sockets
  simp only [BlockTree.block, fields, Block.cleared, sockets]
  rw [Block.mk.injEq]
  exact ⟨by simp, by simp, rfl, by simp, by simp, by simp⟩

namespace Graph

variable {s g g' : Graph} {id parent child : BlockId} {block : Block} {ids loose : List BlockId}

/-- A block and what hangs from its sockets, as it is stored. -/
def treeWithin (g : Graph) (depth : Nat) (id : BlockId) (block : Block) : BlockTree :=
  .node id block.kind block.fields block.extra (block.sockets.filterMap fun socket =>
    (g.plugged? id socket.name).map fun child => (socket.name, g.treesWithin depth child))

theorem Tree.treesWithin_eq (tree : g.Tree) (depth : Nat) (found : g.block? id = some block) :
    g.treesWithin (depth + 1) id
      = g.treeWithin depth id block :: (g.next? id).elim [] (g.treesWithin (depth + 1)) := by
  rw [treesWithin, tree.stack_eq (contains_iff_block.mpr ⟨block, found⟩), List.filterMap_cons]
  simp only [found, Option.map_some, treeWithin]
  cases g.next? id with
  | none => rfl
  | some follower => simp [treesWithin]

theorem Tree.treesWithin_head (tree : g.Tree) (depth : Nat) (present : g.contains id = true) :
    ∃ head below, g.treesWithin (depth + 1) id = head :: below ∧ head.id = id := by
  obtain ⟨block, found⟩ := contains_iff_block.mp present
  exact ⟨_, _, tree.treesWithin_eq depth found, rfl⟩

/-- The blocks that hang from the sockets of a block, without those below it. -/
def insides (g : Graph) (id : BlockId) (sockets : List Socket) : List BlockId :=
  (sockets.filterMap fun socket => g.plugged? id socket.name).flatMap g.walk

theorem Tree.walk_eq_insides (tree : g.Tree) (found : g.block? id = some block) :
    g.walk id = id :: g.insides id block.sockets ++ (g.next? id).elim [] g.walk := by
  rw [tree.walk_eq (contains_iff_block.mpr ⟨block, found⟩), children, found, List.flatMap_append,
    insides, List.cons_append]
  cases g.next? id <;> simp

theorem insides_cons (g : Graph) (id : BlockId) (socket : Socket) (sockets : List Socket) :
    g.insides id (socket :: sockets)
      = (g.plugged? id socket.name).elim [] g.walk ++ g.insides id sockets := by
  cases inside : g.plugged? id socket.name <;> simp [insides, inside]

/-! Copies. -/

/-- The event that tells of a block of the graph. -/
def creation? (g : Graph) (id : BlockId) : Option Event :=
  (g.block? id).map fun block => .onBlock id block.kind .created

/-- A graph that holds some blocks of another one, in the order in which they were placed. The
loose ones do not hang from their links yet. -/
structure Copy (s : Graph) (ids loose : List BlockId) (g : Graph) : Prop where
  sound : g.Sound
  known : ∀ id ∈ ids, s.contains id = true
  within : ∀ id ∈ loose, id ∈ ids
  blocks : ∀ id, g.block? id = if id ∈ ids then (s.block? id).map Block.cleared else none
  links : ∀ id, g.parentLink? id = if id ∈ ids ∧ id ∉ loose then s.parentLink? id else none
  events : g.pending.toList.map some = ids.map s.creation?

namespace Copy

theorem empty : Copy s [] [] Graph.empty where
  sound := .empty
  known := by simp
  within := by simp
  blocks := by simp [block?, node?, Graph.empty]
  links := by simp [parentLink?, node?, Graph.empty]
  events := rfl

theorem contains (copy : Copy s ids loose g) (id : BlockId) : g.contains id = true ↔ id ∈ ids := by
  rw [contains_iff_block, copy.blocks]
  split
  · next member =>
    obtain ⟨block, found⟩ := contains_iff_block.mp (copy.known id member)
    simp [member, found]
  · next other => simp [other]

theorem up (copy : Copy s ids loose g) (h : g.Up child parent) : s.Up child parent := by
  obtain ⟨hook, linked⟩ := h.exists_link
  rw [copy.links] at linked
  split at linked
  · exact up_of_parentLink linked
  · simp at linked

/-- A block is placed under its own id and loose. -/
theorem insertBlock (copy : Copy s ids loose g) (whole : s.Sound) (found : s.block? id = some block)
    (fresh : id ∉ ids) (early : id.number < BlockId.last.number) :
    ∃ placed, g.insertBlock block.cleared = .ok placed ∧ Copy s (ids ++ [id]) (id :: loose) placed := by
  have named : block.cleared.id = id := (block?_id found : block.id = id)
  have free : g.contains block.cleared.id = false := by
    rw [← Bool.not_eq_true, named]
    exact fun there => fresh ((copy.contains id).mp there)
  have inserted : g.insertBlock block.cleared = .ok (g.place block.cleared) :=
    insertBlock_eq_ok.mpr ⟨free, by rwa [named], rfl⟩
  have derived : block.cleared.Derived := (whole.fitted found).warn none
  refine ⟨_, inserted, copy.sound.insertBlock derived inserted, ?_, ?_, ?_, ?_, ?_⟩
  · intro other member
    rcases List.mem_append.mp member with member | member
    · exact copy.known other member
    · rw [List.mem_singleton.mp member]
      exact contains_iff_block.mpr ⟨block, found⟩
  · intro other member
    rcases List.mem_cons.mp member with rfl | member
    · exact List.mem_append_right _ (List.mem_singleton_self _)
    · exact List.mem_append_left _ (copy.within other member)
  · intro other
    rw [block?_place free, named, copy.blocks]
    by_cases here : other = id
    · simp [here, found]
    · simp [here]
  · intro other
    rw [parentLink?_place free, copy.links]
    by_cases here : other = id
    · simp [here, fresh]
    · simp [here]
  · simp [place, emit, push, copy.events, creation?, found, named]

/-- A loose block whose parent is there hangs from its link again. -/
theorem attach {hook : Link} (copy : Copy s ids (child :: loose) g) (whole : s.Sound)
    (linked : s.parentLink? child = some (parent, hook)) (above : parent ∈ ids)
    (below : child ∈ ids) (once : child ∉ loose) :
    ∃ hung, g.attach parent hook child = .ok hung ∧ Copy s ids loose hung := by
  have present := (copy.contains child).mpr below
  have unlinked : g.parentLink? child = none := by simp [copy.links]
  have attached : g.attach parent hook child = .ok (g.link parent hook child) := by
    refine attach_eq_ok.mpr ⟨?_, present, ?_, by simp [parent?, unlinked], ?_, rfl⟩
    · have offered := whole.tree.declared linked
      cases hook with
      | next => exact (copy.contains parent).mpr above
      | socket name =>
        obtain ⟨owner, found, declared⟩ := (Option.any_eq_true _ _).mp offered
        simp only [linkDeclared, copy.blocks, if_pos above, found, Option.map_some, Option.any_some]
        exact declared
    · rw [← Bool.not_eq_true, copy.sound.tree.isAncestorOrSelf_iff]
      intro climbs
      exact whole.tree.not_climbs_child (up_of_parentLink linked)
        (Relation.ReflTransGen.mono (fun _ _ step => copy.up step) _ _ climbs)
    · refine copy.sound.tree.child?_eq_none.mpr fun other taken => ?_
      have taken' := taken
      rw [copy.links] at taken'
      split at taken'
      · rw [whole.tree.unshared taken' linked, unlinked] at taken
        simp at taken
      · simp at taken'
  refine ⟨_, attached, copy.sound.attach attached, copy.known, ?_, ?_, ?_, copy.events⟩
  · exact fun other member => copy.within other (List.mem_cons_of_mem _ member)
  · intro other
    rw [(Moves.link ..).blocks, copy.blocks]
  · intro other
    rw [parentLink?_link present, copy.links]
    by_cases here : other = child
    · simp [here, below, once, linked]
    · simp [here]

/-- A block that was a top block is where it belongs. -/
theorem settle (copy : Copy s ids (id :: loose) g) (top : s.parentLink? id = none) :
    Copy s ids loose g := by
  refine ⟨copy.sound, copy.known, ?_, copy.blocks, fun other => ?_, copy.events⟩
  · exact fun other member => copy.within other (List.mem_cons_of_mem _ member)
  rw [copy.links]
  by_cases here : other = id
  · simp [here, top]
  · simp [here]

end Copy

/-! Loading what was stored. -/

/-- No block in a value socket has a statement below it. -/
def SingleValues (g : Graph) : Prop :=
  ∀ {parent child name owner}, g.parentLink? child = some (parent, .socket name) →
    g.block? parent = some owner → owner.socket? name = some ⟨name, .value⟩ → g.next? child = none

theorem checkInput_stored {socket : Socket} (depth : Nat) (whole : s.Sound)
    (single : s.SingleValues) (found : s.block? id = some block) (declared : socket ∈ block.sockets)
    (inside : s.plugged? id socket.name = some child) :
    checkInput block.cleared socket.name (s.treesWithin (depth + 1) child).length = .ok () := by
  have linked := whole.tree.child?_eq_some.mp inside
  have own := (whole.fitted found).socket?_of_mem declared
  have cleared : block.cleared.socket? socket.name = some socket := own
  obtain ⟨name, kind⟩ := socket
  unfold checkInput
  rw [cleared]
  cases kind with
  | statement => rfl
  | value =>
    have alone := single linked found own
    obtain ⟨value, here⟩ := contains_iff_block.mp (contains_of_parentLink linked)
    simp [whole.tree.treesWithin_eq depth here, alone]

/-- Loading what was stored from a block on gives its walk, with the block itself loose. -/
def LoadsChain (s : Graph) (depth : Nat) (id : BlockId) : Prop :=
  ∀ {ids loose g}, Copy s ids loose g → (∀ other ∈ s.walk id, other ∉ ids) →
    ∃ g', g.loadChain (s.treesWithin depth id) = .ok g' ∧ Copy s (ids ++ s.walk id) (id :: loose) g'

/-- Loading below the block above hangs the stored chain there. -/
def LoadsBelow (s : Graph) (depth : Nat) (id : BlockId) : Prop :=
  ∀ {ids loose g above}, Copy s ids loose g → (∀ other ∈ s.walk id, other ∉ ids) →
    s.parentLink? id = some (above, .next) → above ∈ ids →
    ∃ g', g.loadBelow above (s.treesWithin depth id) = .ok g' ∧ Copy s (ids ++ s.walk id) loose g'

section Load

variable (whole : s.Sound) (single : s.SingleValues)
include whole single

theorem loadInputs_stored {depth : Nat} {sockets : List Socket} (found : s.block? id = some block)
    (enough : s.size ≤ depth + 1 + s.depth id)
    (chains : ∀ child, s.Up child id → s.LoadsChain depth child)
    (declared : sockets ⊆ block.sockets) (distinct : (s.insides id sockets).Nodup)
    (copy : Copy s ids loose g) (placed : id ∈ ids)
    (fresh : ∀ other ∈ s.insides id sockets, other ∉ ids) :
    ∃ g', g.loadInputs block.cleared (sockets.filterMap fun socket =>
        (s.plugged? id socket.name).map fun child => (socket.name, s.treesWithin depth child))
      = .ok g' ∧ Copy s (ids ++ s.insides id sockets) loose g' := by
  induction sockets generalizing ids g with
  | nil => exact ⟨g, rfl, by simpa [insides] using copy⟩
  | cons socket sockets ih =>
    have here := declared (List.mem_cons_self ..)
    have later : sockets ⊆ block.sockets := fun _ member => declared (List.mem_cons_of_mem _ member)
    rw [insides_cons] at distinct fresh
    cases inside : s.plugged? id socket.name with
    | none =>
      simp only [inside, Option.elim_none, List.nil_append] at distinct fresh
      simpa [inside, insides_cons] using ih later distinct copy placed fresh
    | some child =>
      simp only [inside, Option.elim_some] at distinct fresh
      have linked := whole.tree.child?_eq_some.mp inside
      have present := contains_of_parentLink linked
      have deeper := whole.tree.depth_child (up_of_parentLink linked)
      have bound := whole.tree.depth_lt_size present
      obtain ⟨depth, rfl⟩ := Nat.exists_eq_add_one_of_ne_zero (n := depth) (by omega)
      obtain ⟨-, others, apart⟩ := List.nodup_append'.mp distinct
      obtain ⟨chained, loaded, half⟩ := chains child (up_of_parentLink linked) copy
        fun other member => fresh other (List.mem_append_left _ member)
      have self : child ∈ s.walk child := (whole.tree.mem_walk present).mpr .refl
      have once : child ∉ loose := fun member =>
        fresh child (List.mem_append_left _ self) (copy.within child member)
      obtain ⟨hung, attached, whole'⟩ := half.attach whole linked (List.mem_append_left _ placed)
        (List.mem_append_right _ self) once
      obtain ⟨g', rest, copied⟩ := ih later others whole' (List.mem_append_left _ placed)
        fun other member held => by
          rcases List.mem_append.mp held with held | held
          · exact fresh other (List.mem_append_right _ member) held
          · exact apart held member
      have checked := checkInput_stored depth whole single found here inside
      obtain ⟨head, below, listed, headed⟩ := whole.tree.treesWithin_head depth present
      have named : block.cleared.id = id := (block?_id found : block.id = id)
      refine ⟨g', ?_, by simpa [insides_cons, inside] using copied⟩
      simp only [List.filterMap_cons, inside, Option.map_some, Graph.loadInputs, bind_eq_ok]
      refine ⟨(), checked, chained, loaded, ?_⟩
      simp only [listed, headed, named, bind_eq_ok]
      exact ⟨hung, attached, rest⟩

/-- The block of a stored tree and all that hangs from its sockets. -/
theorem loadTree_stored {depth : Nat} (found : s.block? id = some block)
    (enough : s.size ≤ depth + 1 + s.depth id) (early : id.number < BlockId.last.number)
    (chains : ∀ child, s.Up child id → s.LoadsChain depth child)
    (copy : Copy s ids loose g) (fresh : ∀ other ∈ s.walk id, other ∉ ids) :
    ∃ g', g.loadTree (s.treeWithin depth id block) = .ok g' ∧
      Copy s (ids ++ (id :: s.insides id block.sockets)) (id :: loose) g' := by
  have walk := whole.tree.walk_eq_insides found
  have distinct := whole.tree.walk_nodup whole.fitted (contains_iff_block.mpr ⟨block, found⟩)
  rw [walk] at fresh distinct
  obtain ⟨outside, inner⟩ := List.nodup_cons.mp (List.nodup_append'.mp distinct).1
  obtain ⟨placed, inserted, half⟩ := copy.insertBlock whole found (fresh id (by simp)) early
  have named : block.id = id := block?_id found
  obtain ⟨g', loaded, copied⟩ := loadInputs_stored whole single found enough chains (List.Subset.refl _)
    inner half (List.mem_append_right _ (List.mem_singleton_self id)) fun other member held => by
      rcases List.mem_append.mp held with held | held
      · exact fresh other (by simp [member]) held
      · rw [List.mem_singleton.mp held] at member
        exact outside member
  refine ⟨g', ?_, by simpa using copied⟩
  have stored := (whole.fitted found).cleared_eq (block.sockets.filterMap fun socket =>
    (s.plugged? id socket.name).map fun child => (socket.name, s.treesWithin depth child))
  rw [named] at stored
  simp only [treeWithin, Graph.loadTree, stored, bind_eq_ok]
  exact ⟨placed, inserted, loaded⟩

theorem load_stored (early : ∀ id, s.contains id = true → id.number < BlockId.last.number)
    (depth : Nat) (present : s.contains id = true) (enough : s.size ≤ depth + s.depth id) :
    s.LoadsChain depth id ∧ s.LoadsBelow depth id := by
  induction id using whole.tree.descends.induction generalizing depth with
  | h id ih =>
    obtain ⟨block, found⟩ := contains_iff_block.mp present
    have bound := whole.tree.depth_lt_size present
    obtain ⟨depth, rfl⟩ := Nat.exists_eq_add_one_of_ne_zero (n := depth) (by omega)
    have listed := whole.tree.treesWithin_eq depth found
    have walk := whole.tree.walk_eq_insides found
    have chains : ∀ child, s.Up child id → s.LoadsChain depth child := by
      intro child up ids loose g copy
      have deeper := whole.tree.depth_child up
      exact (ih child up depth (Tree.contains_child up) (by omega)).1 copy
    -- The first tree, then the chain below it, whose place is above what was loaded first.
    have below : ∀ {ids loose g}, Copy s (ids ++ (id :: s.insides id block.sockets)) loose g →
        (∀ other ∈ s.walk id, other ∉ ids) →
        ∃ g', g.loadBelow id ((s.next? id).elim [] (s.treesWithin (depth + 1))) = .ok g' ∧
          Copy s (ids ++ s.walk id) loose g' := by
      intro ids loose g copy fresh
      have distinct := whole.tree.walk_nodup whole.fitted present
      rw [walk] at fresh distinct ⊢
      obtain ⟨-, -, apart⟩ := List.nodup_append'.mp distinct
      cases follows : s.next? id with
      | none => exact ⟨g, rfl, by simpa [follows] using copy⟩
      | some follower =>
        have linked := whole.tree.child?_eq_some.mp follows
        have up := up_of_parentLink linked
        have deeper := whole.tree.depth_child up
        simp only [follows, Option.elim_some] at fresh apart ⊢
        obtain ⟨-, hangs⟩ := ih follower up (depth + 1) (Tree.contains_child up) (by omega)
        obtain ⟨g', loaded, copied⟩ := hangs copy
          (fun other member held => by
            rcases List.mem_append.mp held with held | held
            · exact fresh other (List.mem_append_right _ member) held
            · exact apart held member) linked (by simp)
        exact ⟨g', loaded, by simpa using copied⟩
    constructor
    · intro ids loose g copy fresh
      obtain ⟨loaded, first, half⟩ :=
        loadTree_stored whole single found enough (early id present) chains copy fresh
      obtain ⟨g', rest, copied⟩ := below half fresh
      refine ⟨g', ?_, copied⟩
      simp only [listed, Graph.loadChain, bind_eq_ok]
      exact ⟨loaded, first, rest⟩
    · intro ids loose g above copy fresh linked free
      obtain ⟨loaded, first, half⟩ :=
        loadTree_stored whole single found enough (early id present) chains copy fresh
      have self : id ∈ s.walk id := (whole.tree.mem_walk present).mpr .refl
      obtain ⟨hung, attached, joined⟩ := half.attach whole linked (List.mem_append_left _ free)
        (by simp) fun member => fresh id self (copy.within id member)
      obtain ⟨g', rest, copied⟩ := below joined fresh
      refine ⟨g', ?_, copied⟩
      simp only [listed, Graph.loadBelow, bind_eq_ok]
      exact ⟨loaded, first, hung, attached, rest⟩

end Load

theorem Tree.chainIds_treesWithin (tree : s.Tree) (depth : Nat) (present : s.contains id = true)
    (enough : s.size ≤ depth + s.depth id) :
    BlockTree.chainIds (s.treesWithin depth id) = s.walk id := by
  induction id using tree.descends.induction generalizing depth with
  | h id ih =>
    obtain ⟨block, found⟩ := contains_iff_block.mp present
    have bound := tree.depth_lt_size present
    obtain ⟨depth, rfl⟩ := Nat.exists_eq_add_one_of_ne_zero (n := depth) (by omega)
    have inputs : ∀ sockets : List Socket, BlockTree.inputIds (sockets.filterMap fun socket =>
        (s.plugged? id socket.name).map fun child => (socket.name, s.treesWithin depth child))
          = s.insides id sockets := by
      intro sockets
      induction sockets with
      | nil => rfl
      | cons socket sockets rest =>
        rw [insides_cons, ← rest]
        cases inside : s.plugged? id socket.name with
        | none => simp [inside]
        | some child =>
          have up := tree.up_of_child? inside
          have deeper := tree.depth_child up
          simp [inside, BlockTree.inputIds, ih child up depth (contains_child up) (by omega)]
    rw [tree.treesWithin_eq depth found, tree.walk_eq_insides found, ← inputs]
    rw [BlockTree.chainIds, treeWithin, BlockTree.ids]
    cases follows : s.next? id with
    | none => rfl
    | some follower =>
      have up := tree.up_of_child? follows
      have deeper := tree.depth_child up
      simp [ih follower up (depth + 1) (contains_child up) (by omega)]

theorem Tree.ids_toForest (tree : s.Tree) : s.toForest.ids = s.walkAll := by
  rw [Forest.ids, toForest, List.flatMap_map, walkAll]
  apply List.flatMap_congr
  intro top member
  exact tree.chainIds_treesWithin s.size (tree.mem_topBlocks.mp member).1 (Nat.le_add_right ..)

/-! What is stored. -/

theorem Tree.topBlocks_eq (tree : g.Tree) :
    g.topBlocks = g.ids.filter fun id => (g.parentLink? id).isNone := by
  rw [topBlocks, Graph.ids, List.filter_map]
  refine congrArg (List.map Node.id) (List.filter_congr fun node member => ?_)
  simp [parentLink?, node?_of_mem tree.distinct member]

/-- Two graphs agree on ids, links and all of a block that is stored. -/
structure Mirrors (s g : Graph) : Prop where
  ids : g.ids = s.ids
  blocks : ∀ id, (g.block? id).map Block.cleared = (s.block? id).map Block.cleared
  links : ∀ id, g.parentLink? id = s.parentLink? id

namespace Mirrors

variable (mirrors : s.Mirrors g) (tree : s.Tree) (tree' : g.Tree)
include mirrors

theorem map_block {α : Type} {read : Block → α} (ignores : ∀ block : Block, read block.cleared = read block)
    (id : BlockId) : (g.block? id).map read = (s.block? id).map read := by
  have through : ∀ found : Option Block, found.map read = (found.map Block.cleared).map read := by
    rintro (_ | block)
    · rfl
    · exact congrArg some (ignores block).symm
  rw [through, mirrors.blocks, ← through]

theorem stored_block {block : Block} (found : g.block? id = some block) :
    ∃ stored, s.block? id = some stored ∧ block.cleared = stored.cleared := by
  have same := mirrors.blocks id
  rw [found, Option.map_some] at same
  obtain ⟨stored, there, alike⟩ := Option.map_eq_some_iff.mp same.symm
  exact ⟨stored, there, alike.symm⟩

theorem size : g.size = s.size := by
  simpa [Graph.ids, Graph.size] using congrArg List.length mirrors.ids

include tree tree'

theorem child? (hook : Link) : g.child? id hook = s.child? id hook :=
  tree.child?_congr tree' mirrors.links id hook

theorem stack (first : BlockId) : g.stack first = s.stack first := by
  have within : ∀ depth id, g.stackWithin depth id = s.stackWithin depth id := by
    intro depth
    induction depth with
    | zero => exact fun _ => rfl
    | succ depth ih =>
      intro id
      rw [stackWithin, stackWithin, next?, next?, mirrors.child? tree tree']
      cases s.child? id .next with
      | none => rfl
      | some follower => exact congrArg (id :: ·) (ih follower)
  have contains : g.contains first = s.contains first := by
    rw [Bool.eq_iff_iff, contains_iff_mem, contains_iff_mem, mirrors.ids]
  rw [Graph.stack, Graph.stack, contains, mirrors.size, within]

theorem treesWithin (depth : Nat) (first : BlockId) :
    g.treesWithin depth first = s.treesWithin depth first := by
  induction depth generalizing first with
  | zero => rfl
  | succ depth ih =>
    rw [Graph.treesWithin, Graph.treesWithin, mirrors.stack tree tree']
    refine List.filterMap_congr fun id _ => ?_
    have children : ∀ name, g.plugged? id name = s.plugged? id name :=
      fun name => mirrors.child? tree tree' (.socket name)
    simp only [children, ih]
    exact mirrors.map_block (fun _ => rfl) id

theorem toForest : g.toForest = s.toForest := by
  have tops : g.topBlocks = s.topBlocks := by
    simp only [tree.topBlocks_eq, tree'.topBlocks_eq, mirrors.ids, mirrors.links]
  rw [Graph.toForest, Graph.toForest, tops, mirrors.size]
  exact congrArg Forest.mk (List.map_congr_left fun top _ => mirrors.treesWithin tree tree' _ top)

end Mirrors

/-- Loading the stacks of some top blocks, none of which is there yet. -/
theorem foldlM_loadChain_stored (whole : s.Sound) (single : s.SingleValues)
    (early : ∀ id, s.contains id = true → id.number < BlockId.last.number)
    {tops : List BlockId} (known : ∀ top ∈ tops, s.contains top = true ∧ s.parent? top = none)
    (distinct : (tops.flatMap s.walk).Nodup) (copy : Copy s ids [] g)
    (fresh : ∀ other ∈ tops.flatMap s.walk, other ∉ ids) :
    ∃ g', (tops.map (s.treesWithin s.size)).foldlM loadChain g = .ok g' ∧
      Copy s (ids ++ tops.flatMap s.walk) [] g' := by
  induction tops generalizing ids g with
  | nil => exact ⟨g, rfl, by simpa using copy⟩
  | cons top tops ih =>
    obtain ⟨present, ends⟩ := known top (List.mem_cons_self ..)
    rw [List.flatMap_cons] at distinct fresh
    obtain ⟨-, others, apart⟩ := List.nodup_append'.mp distinct
    obtain ⟨loaded, first, half⟩ :=
      (load_stored whole single early s.size present (Nat.le_add_right ..)).1 copy
        fun other member => fresh other (List.mem_append_left _ member)
    have unlinked : s.parentLink? top = none := by simpa [parent?] using ends
    obtain ⟨g', rest, copied⟩ := ih (fun other member => known other (List.mem_cons_of_mem _ member))
      others (half.settle unlinked) fun other member held => by
        rcases List.mem_append.mp held with held | held
        · exact fresh other (List.mem_append_right _ member) held
        · exact apart held member
    refine ⟨g', ?_, by simpa using copied⟩
    simp only [List.map_cons, List.foldlM_cons, bind_eq_ok]
    exact ⟨loaded, first, rest⟩

/-- A graph whose ids have successors and whose value sockets hold single blocks is rebuilt from
its stored form. -/
theorem Sound.copy_of_toForest (whole : s.Sound) (single : s.SingleValues)
    (early : ∀ id, s.contains id = true → id.number < BlockId.last.number) :
    ∃ g, Graph.ofForest s.toForest = .ok g ∧ Copy s s.walkAll [] g := by
  have distinct : s.walkAll.Nodup :=
    (whole.tree.walkAll_perm whole.fitted).nodup_iff.mpr whole.tree.distinct
  obtain ⟨g, loaded, copied⟩ := foldlM_loadChain_stored whole single early
    (fun top member => whole.tree.mem_topBlocks.mp member) distinct Copy.empty (by simp)
  exact ⟨g, loaded, copied⟩

/-- Ascending ids are determined by which blocks are there. -/
theorem Tree.ids_eq (tree : g.Tree) (tree' : g'.Tree)
    (same : ∀ id, g'.contains id = true ↔ g.contains id = true) : g'.ids = g.ids :=
  eq_of_ascending tree'.ascending tree.ascending fun id => by
    rw [← contains_iff_mem, same, contains_iff_mem]

/-- Blocks and links are all that the nodes tell. -/
theorem Tree.nodes_eq (tree : g.Tree) (tree' : g'.Tree) (blocks : ∀ id, g'.block? id = g.block? id)
    (links : ∀ id, g'.parentLink? id = g.parentLink? id) : g'.nodes = g.nodes := by
  have told : ∀ {g : Graph}, g.Tree → g.nodes = g.ids.filterMap fun id =>
      (g.block? id).map fun block => ⟨block, g.parentLink? id⟩ := by
    intro g tree
    have own : ∀ node ∈ g.nodes, ((fun id => (g.block? id).map fun block =>
        (⟨block, g.parentLink? id⟩ : Node)) ∘ Node.id) node = some node := by
      intro node member
      simp [block?, parentLink?, node?_of_mem tree.distinct member]
    rw [Graph.ids, List.filterMap_map, List.filterMap_congr own, List.filterMap_some]
  have ids := tree.ids_eq tree' fun id => by rw [contains_iff_block, contains_iff_block, blocks]
  rw [told tree', told tree, ids]
  simp only [blocks, links]

/-- A warning that is there already changes nothing. -/
theorem Tree.setWarning_same {block : Block} {warning : Option String} (tree : g.Tree)
    (found : g.block? id = some block) (same : block.warning = warning) : g.setWarning id warning = .ok g := by
  obtain ⟨warned, warns⟩ : ∃ warned, g.setWarning id warning = .ok warned :=
    ⟨_, setWarning_eq_ok.mpr ⟨contains_iff_block.mpr ⟨block, found⟩, rfl⟩⟩
  have nodes : warned.nodes = g.nodes := by
    refine tree.nodes_eq (tree.setWarning warns) (fun id => ?_) (parentLink?_setWarning warns)
    rw [block?_setWarning warns]
    split
    · next here => subst here same; rw [found]; rfl
    · rfl
  obtain ⟨-, rfl⟩ := setWarning_eq_ok.mp warns
  rw [warns]
  exact congrArg Except.ok (congrArg (fun nodes => { g with nodes }) nodes)

/-- A complete copy differs from the graph in warnings and events alone. -/
theorem Copy.mirrors (whole : s.Sound) (copy : Copy s s.walkAll [] g) : s.Mirrors g := by
  have perm := whole.tree.walkAll_perm whole.fitted
  refine ⟨?_, fun id => ?_, fun id => ?_⟩
  · apply whole.tree.ids_eq copy.sound.tree
    intro id
    rw [copy.contains, perm.mem_iff, contains_iff_mem]
  · rw [copy.blocks]
    split
    · rw [Option.map_map]
      rfl
    · next missing =>
      rw [perm.mem_iff, ← contains_iff_mem, contains_iff_block] at missing
      simp [Option.eq_none_iff_forall_ne_some, not_exists.mp missing]
  · rw [copy.links]
    by_cases here : id ∈ s.walkAll
    · simp [here]
    · rw [perm.mem_iff, ← contains_iff_mem, Bool.not_eq_true] at here
      simp [parentLink?_of_missing here]

/-- Storing and loading keeps ids, kinds, fields with their order, states, sockets and links, and
clears every warning; one creation is queued for each block, in the order of a walk. -/
theorem Reachable.ofForest_toForest (reached : g.Reachable) (single : g.SingleValues)
    (early : ∀ id, g.contains id = true → id.number < BlockId.last.number) :
    ∃ loaded, Graph.ofForest g.toForest = .ok loaded ∧ loaded.ids = g.ids ∧
      (∀ id, loaded.block? id = (g.block? id).map fun block => { block with warning := none }) ∧
      (∀ id, loaded.parentLink? id = g.parentLink? id) ∧
      loaded.pending.toList.map some = g.walkAll.map g.creation? ∧
      g.toForest.size = g.size := by
  obtain ⟨tree, fitted⟩ := reached.sound
  obtain ⟨loaded, stored, copied⟩ := Sound.copy_of_toForest ⟨tree, fitted⟩ single early
  have perm := tree.walkAll_perm fitted
  refine ⟨loaded, stored, ?_, ?_, ?_, copied.events, ?_⟩
  · apply tree.ids_eq copied.sound.tree
    intro id
    rw [copied.contains, perm.mem_iff, contains_iff_mem]
  · intro id
    rw [copied.blocks]
    split
    · rfl
    · next missing =>
      rw [perm.mem_iff, ← contains_iff_mem, contains_iff_block] at missing
      simp [Option.eq_none_iff_forall_ne_some, not_exists.mp missing]
  · intro id
    rw [copied.links]
    by_cases here : id ∈ g.walkAll
    · simp [here]
    · rw [perm.mem_iff, ← contains_iff_mem, Bool.not_eq_true] at here
      simp [parentLink?_of_missing here]
  · rw [Forest.size, tree.ids_toForest, perm.length_eq, ids, List.length_map, size]

/-- A method with a call inside comes back without the warning of the call. -/
theorem ofForest_toForest_method :
    let edits : List Mutation := [.add .methodDef (.method {}), .add .methodCall (.call {}),
      .connectSocket ⟨0⟩ Socket.stack ⟨1⟩, .setWarning ⟨1⟩ (some "unused")]
    let g := edits.foldl Graph.mutate Graph.empty
    ∃ loaded, Graph.ofForest g.toForest = .ok loaded ∧ loaded.ids = [⟨0⟩, ⟨1⟩] ∧
      loaded.parentLink? ⟨1⟩ = some (⟨0⟩, .socket Socket.stack) ∧
      (loaded.block? ⟨1⟩).map (·.warning) = some none := by
  intro edits g
  have alone : ∀ id ∈ g.ids, g.next? id = none := by decide
  have early : ∀ id ∈ g.ids, id.number < BlockId.last.number := by decide
  obtain ⟨loaded, stored, ids, blocks, links, -, -⟩ := Reachable.ofForest_toForest (g := g)
    (Reachable.empty.foldl_mutate edits)
    (fun linked _ _ => alone _ (contains_iff_mem.mp (contains_of_parentLink linked)))
    fun id present => early id (contains_iff_mem.mp present)
  refine ⟨loaded, stored, ids.trans (by decide), (links ⟨1⟩).trans (by decide), ?_⟩
  rw [blocks]
  decide

end Graph
end RobotBlocks
