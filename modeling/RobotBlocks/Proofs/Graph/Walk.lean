import Mathlib.Data.List.Nodup
import RobotBlocks.Proofs.Block.Derived
import RobotBlocks.Proofs.Graph.Tree

/-! Walks through a forest. The bound on the depth of a walk is never met: every walk satisfies
the equation of its unbounded loop, and the walks of the top blocks meet each block once. -/
namespace RobotBlocks.Graph

variable {g g' : Graph} {id other parent child : BlockId}

theorem Tree.up_of_child? {link : Link} (tree : g.Tree)
    (h : g.child? parent link = some child) : g.Up child parent :=
  up_of_parentLink (tree.child?_eq_some.mp h)

theorem contains_of_child? {link : Link} (tree : g.Tree)
    (h : g.child? parent link = some child) : g.contains child = true :=
  contains_of_parentLink (tree.child?_eq_some.mp h)

/-! Stacks. -/

/-- Below a block there are fewer blocks than there are levels left. -/
theorem Tree.stackWithin_succ (tree : g.Tree) {fuel : Nat} (present : g.contains id = true)
    (enough : g.size ≤ fuel + g.depth id) :
    g.stackWithin (fuel + 1) id = g.stackWithin fuel id := by
  induction fuel generalizing id with
  | zero =>
    have := tree.depth_lt_size present
    omega
  | succ fuel ih =>
    rw [stackWithin, stackWithin]
    cases below : g.next? id with
    | none => rfl
    | some follower =>
      have deeper := tree.depth_child (tree.up_of_child? below)
      simp only [Option.elim_some]
      rw [ih (contains_of_child? tree below) (by omega)]

theorem Tree.stack_eq (tree : g.Tree) (present : g.contains id = true) :
    g.stack id = id :: (g.next? id).elim [] g.stack := by
  rw [stack, if_pos present, ← tree.stackWithin_succ present (Nat.le_add_right ..), stackWithin]
  cases below : g.next? id with
  | none => rfl
  | some follower => simp [stack, contains_of_child? tree below]

theorem stack_of_missing (h : g.contains id = false) : g.stack id = [] := by
  simp [stack, h]

theorem Tree.climbs_of_mem_stack (tree : g.Tree) (present : g.contains id = true)
    (h : other ∈ g.stack id) : g.Climbs other id := by
  induction id using tree.descends.induction with
  | h id ih =>
    rw [tree.stack_eq present] at h
    rcases List.mem_cons.mp h with rfl | later
    · exact .refl
    · cases below : g.next? id with
      | none => simp [below] at later
      | some follower =>
        have step := tree.up_of_child? below
        simp only [below, Option.elim_some] at later
        exact (ih follower step (contains_child step) later).tail step

theorem Tree.contains_of_mem_stack (tree : g.Tree) (h : other ∈ g.stack id) :
    g.contains other = true := by
  cases present : g.contains id with
  | false =>
    rw [stack_of_missing present] at h
    cases h
  | true =>
    rcases Relation.ReflTransGen.cases_head (tree.climbs_of_mem_stack present h) with rfl | ⟨_, step, -⟩
    · exact present
    · exact contains_child step

/-- The blocks of a section are there. -/
theorem Tree.contains_of_mem_statementStack (tree : g.Tree) {socket : String}
    (h : other ∈ g.statementStack id socket) : g.contains other = true := by
  unfold statementStack at h
  cases held : g.plugged? id socket with
  | none => simp [held] at h
  | some first =>
    rw [held, Option.elim_some] at h
    exact tree.contains_of_mem_stack h

theorem Tree.getLast?_stack (tree : g.Tree) (present : g.contains id = true) :
    (g.stack id).getLast? = some (g.lastInStack id) := by
  rw [lastInStack, tree.stack_eq present, List.getLast?_eq_getLast_of_ne_nil (by simp)]
  simp

theorem Tree.lastInStack_eq (tree : g.Tree) (present : g.contains id = true) :
    g.lastInStack id = (g.next? id).elim id g.lastInStack := by
  rw [lastInStack, tree.stack_eq present]
  cases below : g.next? id with
  | none => simp
  | some follower =>
    have inside := contains_of_child? tree below
    have last := tree.getLast?_stack inside
    simp only [Option.elim_some]
    rw [List.getLast?_cons, last]
    rfl

theorem Tree.next?_lastInStack (tree : g.Tree) (present : g.contains id = true) :
    g.next? (g.lastInStack id) = none := by
  induction id using tree.descends.induction with
  | h id ih =>
    rw [tree.lastInStack_eq present]
    cases below : g.next? id with
    | none => exact below
    | some follower =>
      have step := tree.up_of_child? below
      exact ih follower step (contains_child step)

theorem Tree.lastInStack_climbs (tree : g.Tree) (present : g.contains id = true) :
    g.Climbs (g.lastInStack id) id :=
  tree.climbs_of_mem_stack present (List.mem_of_getLast? (tree.getLast?_stack present))

theorem Tree.contains_lastInStack (tree : g.Tree) (present : g.contains id = true) :
    g.contains (g.lastInStack id) = true := by
  induction id using tree.descends.induction with
  | h id ih =>
    rw [tree.lastInStack_eq present]
    cases below : g.next? id with
    | none => exact present
    | some follower =>
      have step := tree.up_of_child? below
      exact ih follower step (contains_child step)

/-- A stack holds its first block and what follows a block of the stack. -/
theorem Tree.mem_stack (tree : g.Tree) (present : g.contains id = true) :
    other ∈ g.stack id ↔ other = id ∨ ∃ above ∈ g.stack id, g.parentLink? other = some (above, .next) := by
  induction id using tree.descends.induction with
  | h id ih =>
    rw [tree.stack_eq present]
    cases below : g.next? id with
    | none =>
      have last : ∀ child, g.parentLink? child ≠ some (id, .next) := tree.child?_eq_none.mp below
      simp [last other]
    | some follower =>
      have step := tree.up_of_child? below
      have linked := tree.child?_eq_some.mp below
      simp only [Option.elim_some, List.mem_cons, exists_eq_or_imp,
        ih follower step (contains_child step)]
      have first : g.parentLink? other = some (id, .next) ↔ other = follower :=
        ⟨fun follows => tree.unshared follows linked, fun same => same ▸ linked⟩
      rw [first]

theorem Tree.head_mem_stack (tree : g.Tree) (present : g.contains id = true) : id ∈ g.stack id :=
  (tree.mem_stack present).mpr (.inl rfl)

theorem Tree.lastInStack_mem (tree : g.Tree) (present : g.contains id = true) :
    g.lastInStack id ∈ g.stack id :=
  List.mem_of_getLast? (tree.getLast?_stack present)

/-- Only the last statement of a stack has none below it. -/
theorem Tree.eq_lastInStack (tree : g.Tree) (present : g.contains id = true) (member : other ∈ g.stack id)
    (last : g.next? other = none) : other = g.lastInStack id := by
  induction id using tree.descends.induction with
  | h id ih =>
    rw [tree.lastInStack_eq present]
    rw [tree.stack_eq present] at member
    cases below : g.next? id with
    | none => simpa [below] using member
    | some follower =>
      have step := tree.up_of_child? below
      rw [below, Option.elim_some] at member
      rcases List.mem_cons.mp member with rfl | member
      · cases last.symm.trans below
      · exact ih follower step (contains_child step) member

/-- A stack is decided by what follows what. -/
theorem Tree.stack_congr (tree : g.Tree) (tree' : g'.Tree) (present : g.contains id = true)
    (present' : g'.contains id = true) (same : ∀ other ∈ g.stack id, g'.next? other = g.next? other) :
    g'.stack id = g.stack id := by
  induction id using tree.descends.induction with
  | h id ih =>
    have next := same id (tree.head_mem_stack present)
    rw [tree'.stack_eq present', tree.stack_eq present, next]
    cases below : g.next? id with
    | none => rfl
    | some follower =>
      have step := tree.up_of_child? below
      have inside : ∀ other ∈ g.stack follower, other ∈ g.stack id := fun other member => by
        rw [tree.stack_eq present, below]
        exact List.mem_cons_of_mem _ member
      rw [Option.elim_some, Option.elim_some, ih follower step (contains_child step)
        (contains_of_child? tree' (next.trans below)) fun other member => same other (inside other member)]

theorem Tree.stack_nodup (tree : g.Tree) (id : BlockId) : (g.stack id).Nodup := by
  induction id using tree.descends.induction with
  | h id ih =>
    cases present : g.contains id with
    | false => simp [stack_of_missing present]
    | true =>
      rw [tree.stack_eq present]
      cases below : g.next? id with
      | none => simp
      | some follower =>
        have step := tree.up_of_child? below
        refine List.nodup_cons.mpr ⟨fun member => ?_, ih follower step⟩
        exact tree.not_climbs_child step (tree.climbs_of_mem_stack (contains_child step) member)

theorem Tree.statementStack_nodup (tree : g.Tree) (id : BlockId) (socket : String) :
    (g.statementStack id socket).Nodup := by
  rw [statementStack]
  cases g.plugged? id socket with
  | none => exact List.nodup_nil
  | some first => exact tree.stack_nodup first

/-! Walks. -/

/-- The blocks that hang from a block, in the order in which a walk takes them. -/
def children (g : Graph) (id : BlockId) : List BlockId :=
  ((g.block? id).elim [] (·.sockets)).filterMap (fun socket => g.plugged? id socket.name)
    ++ (g.next? id).toList

theorem walkWithin_succ_eq (fuel : Nat) :
    g.walkWithin (fuel + 1) id = id :: (g.children id).flatMap (g.walkWithin fuel) := by
  rw [walkWithin, children, List.flatMap_append, List.cons_append]
  congr 2
  · generalize (g.block? id).elim [] (·.sockets) = sockets
    induction sockets with
    | nil => rfl
    | cons socket sockets ih =>
      cases inside : g.plugged? id socket.name with
      | none => simp [inside, ih]
      | some plugged => simp [inside, ih]
  · cases g.next? id <;> simp

theorem Tree.up_of_mem_children (tree : g.Tree) (h : child ∈ g.children id) : g.Up child id := by
  rcases List.mem_append.mp h with h | h
  · obtain ⟨socket, -, found⟩ := List.mem_filterMap.mp h
    exact tree.up_of_child? found
  · exact tree.up_of_child? (Option.mem_toList.mp h)

/-- Every child hangs from a socket that its parent declares, or it is the statement below. -/
theorem Tree.mem_children (tree : g.Tree) : child ∈ g.children id ↔ g.Up child id := by
  refine ⟨tree.up_of_mem_children, fun up => ?_⟩
  obtain ⟨link, linked⟩ := up.exists_link
  have found := tree.child?_eq_some.mpr linked
  cases link with
  | next => exact List.mem_append_right _ (Option.mem_toList.mpr found)
  | socket name =>
    apply List.mem_append_left
    obtain ⟨block, here, declared⟩ := (Option.any_eq_true _ _).mp (tree.declared linked)
    obtain ⟨socket, offered⟩ := Option.isSome_iff_exists.mp declared
    have named : socket.name = name := by simpa using List.find?_some offered
    refine List.mem_filterMap.mpr ⟨socket, ?_, by rw [named]; exact found⟩
    simpa [here] using List.mem_of_find?_eq_some offered

theorem Tree.walkWithin_succ (tree : g.Tree) {fuel : Nat} (present : g.contains id = true)
    (enough : g.size ≤ fuel + g.depth id) :
    g.walkWithin (fuel + 1) id = g.walkWithin fuel id := by
  induction fuel generalizing id with
  | zero =>
    have := tree.depth_lt_size present
    omega
  | succ fuel ih =>
    rw [walkWithin_succ_eq, walkWithin_succ_eq]
    congr 1
    apply List.flatMap_congr
    intro child member
    have step := tree.up_of_mem_children member
    have deeper := tree.depth_child step
    exact ih (contains_child step) (by omega)

theorem Tree.walk_eq (tree : g.Tree) (present : g.contains id = true) :
    g.walk id = id :: (g.children id).flatMap g.walk := by
  rw [walk, if_pos present, ← tree.walkWithin_succ present (Nat.le_add_right ..),
    walkWithin_succ_eq]
  congr 1
  apply List.flatMap_congr
  intro child member
  rw [walk, if_pos (contains_child (tree.up_of_mem_children member))]

theorem Tree.mem_walk (tree : g.Tree) (present : g.contains id = true) :
    other ∈ g.walk id ↔ g.Climbs other id := by
  induction id using tree.descends.induction with
  | h id ih =>
    rw [tree.walk_eq present, List.mem_cons, List.mem_flatMap]
    constructor
    · rintro (rfl | ⟨child, member, inside⟩)
      · exact .refl
      · have step := tree.up_of_mem_children member
        exact ((ih child step (contains_child step)).mp inside).tail step
    · intro climbs
      rcases Relation.ReflTransGen.cases_tail climbs with same | ⟨child, climbs, step⟩
      · exact .inl same.symm
      · exact .inr ⟨child, tree.mem_children.mpr step,
          (ih child step (contains_child step)).mpr climbs⟩

/-! Walks repeat nothing. -/

/-- Every block has what its kind and state ask for. -/
def Fitted (g : Graph) : Prop := ∀ {id block}, g.block? id = some block → block.Derived

theorem Tree.children_nodup (tree : g.Tree) (fitted : g.Fitted) (id : BlockId) :
    (g.children id).Nodup := by
  have plugged : ∀ {child}, child ∈ ((g.block? id).elim [] (·.sockets)).filterMap
      (fun socket => g.plugged? id socket.name) →
      ∃ name, g.parentLink? child = some (id, .socket name) := by
    intro child member
    obtain ⟨socket, -, found⟩ := List.mem_filterMap.mp member
    exact ⟨socket.name, tree.child?_eq_some.mp found⟩
  rw [children]
  apply List.Nodup.append
  · have names : (((g.block? id).elim [] (·.sockets)).map (·.name)).Nodup := by
      cases found : g.block? id with
      | none => simp
      | some block => exact (fitted found).nodup
    have byName : ∀ sockets : List Socket,
        sockets.filterMap (fun socket => g.plugged? id socket.name)
          = (sockets.map (·.name)).filterMap (g.plugged? id) := by
      intro sockets
      rw [List.filterMap_map]
      rfl
    rw [byName]
    apply names.filterMap
    intro a b child ha hb
    have linked := (tree.child?_eq_some.mp ha).symm.trans (tree.child?_eq_some.mp hb)
    simpa using linked
  · cases g.next? id <;> simp
  · intro child inside below
    obtain ⟨name, linked⟩ := plugged inside
    have follows := tree.child?_eq_some.mp (Option.mem_toList.mp below)
    simp [linked] at follows

/-- What hangs from two children of one block hangs apart. -/
theorem Tree.siblings_apart (tree : g.Tree) {a b : BlockId} (ha : g.Up a parent)
    (hb : g.Up b parent) (fromA : g.Climbs id a) (fromB : g.Climbs id b) : a = b := by
  have same : ∀ {a b}, g.Up a parent → g.Up b parent → g.Climbs a b → a = b := by
    intro a b ha hb climbs
    rcases Relation.ReflTransGen.cases_head climbs with same | ⟨above, step, climbs⟩
    · exact same
    · rw [Up.unique step ha] at climbs
      exact (tree.not_climbs_child hb climbs).elim
  rcases climbs_total fromA fromB with climbs | climbs
  · exact same ha hb climbs
  · exact (same hb ha climbs).symm

theorem Tree.walk_nodup (tree : g.Tree) (fitted : g.Fitted) (present : g.contains id = true) :
    (g.walk id).Nodup := by
  induction id using tree.descends.induction with
  | h id ih =>
    have inside : ∀ {child}, child ∈ g.children id → g.contains child = true :=
      fun member => contains_child (tree.up_of_mem_children member)
    rw [tree.walk_eq present]
    refine List.nodup_cons.mpr ⟨?_, List.nodup_flatMap.mpr ⟨?_, ?_⟩⟩
    · intro again
      obtain ⟨child, member, back⟩ := List.mem_flatMap.mp again
      exact tree.not_climbs_child (tree.up_of_mem_children member)
        ((tree.mem_walk (inside member)).mp back)
    · intro child member
      exact ih child (tree.up_of_mem_children member) (inside member)
    · apply (tree.children_nodup fitted id).imp_of_mem
      intro a b ha hb differ x inA inB
      exact differ (tree.siblings_apart (tree.up_of_mem_children ha) (tree.up_of_mem_children hb)
        ((tree.mem_walk (inside ha)).mp inA) ((tree.mem_walk (inside hb)).mp inB))

theorem Tree.mem_topBlocks (tree : g.Tree) :
    id ∈ g.topBlocks ↔ g.contains id = true ∧ g.parent? id = none := by
  have own : ∀ {node}, node ∈ g.nodes → g.parent? node.id = none → node.parent = none := by
    intro node member top
    simpa [parent?, parentLink?, node?_of_mem tree.distinct member] using top
  constructor
  · intro member
    obtain ⟨node, kept, rfl⟩ := List.mem_map.mp member
    obtain ⟨member, top⟩ := List.mem_filter.mp kept
    have found := node?_of_mem tree.distinct member
    exact ⟨by simp [contains, found], by simpa [parent?, parentLink?, found] using top⟩
  · rintro ⟨present, top⟩
    obtain ⟨node, member, rfl⟩ := List.mem_map.mp (contains_iff_mem.mp present)
    exact List.mem_map_of_mem (List.mem_filter.mpr ⟨member, by simp [own member top]⟩)

theorem Tree.topBlocks_nodup (tree : g.Tree) : g.topBlocks.Nodup :=
  tree.distinct.sublist (List.filter_sublist.map _)

theorem Tree.topBlocks_ascending (tree : g.Tree) : g.topBlocks.Pairwise fun a b => a.number < b.number :=
  tree.ascending.sublist (List.filter_sublist.map Node.id)

/-! Graphs with the same links. -/

section SameLinks

variable (tree : g.Tree) (tree' : g'.Tree) (links : ∀ id, g'.parentLink? id = g.parentLink? id)
include tree tree' links

theorem Tree.child?_congr (parent : BlockId) (link : Link) : g'.child? parent link = g.child? parent link :=
  Option.ext fun child => by rw [tree'.child?_eq_some, tree.child?_eq_some, links]

theorem Tree.statementStack_congr (id : BlockId) (socket : String) :
    g'.statementStack id socket = g.statementStack id socket := by
  have held : g'.plugged? id socket = g.plugged? id socket := tree.child?_congr tree' links id (.socket socket)
  rw [statementStack, statementStack, held]
  cases inside : g.plugged? id socket with
  | none => rfl
  | some first =>
    have linked := tree.child?_eq_some.mp inside
    exact tree.stack_congr tree' (contains_of_parentLink linked)
      (contains_of_parentLink ((links first).trans linked)) fun other _ => tree.child?_congr tree' links other .next

end SameLinks

/-- Graphs whose blocks stand in the same places. -/
structure SameShape (g g' : Graph) : Prop where
  contains : ∀ id, g'.contains id = g.contains id
  links : ∀ id, g'.parentLink? id = g.parentLink? id

namespace SameShape

theorem refl (g : Graph) : SameShape g g := ⟨fun _ => rfl, fun _ => rfl⟩

theorem trans {g'' : Graph} (h : SameShape g g') (k : SameShape g' g'') : SameShape g g'' :=
  ⟨fun id => (k.contains id).trans (h.contains id), fun id => (k.links id).trans (h.links id)⟩

variable (shape : SameShape g g') (tree : g.Tree) (tree' : g'.Tree)
include shape tree tree'

theorem child? (parent : BlockId) (link : Link) : g'.child? parent link = g.child? parent link :=
  tree.child?_congr tree' shape.links parent link

theorem stack (first : BlockId) : g'.stack first = g.stack first := by
  cases present : g.contains first with
  | false => rw [stack_of_missing present, stack_of_missing ((shape.contains first).trans present)]
  | true =>
    exact tree.stack_congr tree' present ((shape.contains first).trans present) fun other _ =>
      shape.child? tree tree' other .next

theorem statementStack (id : BlockId) (socket : String) : g'.statementStack id socket = g.statementStack id socket :=
  tree.statementStack_congr tree' shape.links id socket

theorem topBlocks : g'.topBlocks = g.topBlocks := by
  refine eq_of_ascending tree'.topBlocks_ascending tree.topBlocks_ascending fun id => ?_
  rw [tree'.mem_topBlocks, tree.mem_topBlocks, shape.contains, parent?, parent?, shape.links]

end SameShape

/-- The walks of all top blocks meet every block, and none of them twice. -/
theorem Tree.walkAll_perm (tree : g.Tree) (fitted : g.Fitted) : g.walkAll.Perm g.ids := by
  have nodup : g.walkAll.Nodup := by
    refine List.nodup_flatMap.mpr ⟨?_, ?_⟩
    · intro top member
      exact tree.walk_nodup fitted (tree.mem_topBlocks.mp member).1
    · apply tree.topBlocks_nodup.imp_of_mem
      intro a b ha hb differ x inA inB
      obtain ⟨presentA, topA⟩ := tree.mem_topBlocks.mp ha
      obtain ⟨presentB, topB⟩ := tree.mem_topBlocks.mp hb
      exact differ (top_unique ((tree.mem_walk presentA).mp inA)
        ((tree.mem_walk presentB).mp inB) topA topB)
  apply (List.perm_ext_iff_of_nodup nodup tree.distinct).mpr
  intro id
  rw [← contains_iff_mem, walkAll, List.mem_flatMap]
  constructor
  · rintro ⟨top, member, inside⟩
    obtain ⟨present, -⟩ := tree.mem_topBlocks.mp member
    rcases Relation.ReflTransGen.cases_head ((tree.mem_walk present).mp inside) with same | up
    · exact same ▸ present
    · obtain ⟨_, step, -⟩ := up
      exact contains_child step
  · intro present
    obtain ⟨top, climbs, there, ends⟩ := tree.exists_top present
    exact ⟨top, tree.mem_topBlocks.mpr ⟨there, ends⟩, (tree.mem_walk there).mpr climbs⟩

end RobotBlocks.Graph
