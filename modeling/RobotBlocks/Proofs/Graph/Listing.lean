import Mathlib.Data.List.Nodup
import RobotBlocks.Proofs.Graph.Enforcement
import RobotBlocks.Proofs.Session.Reconcile
import RobotBlocks.Proofs.Session.Regular

/-! Which blocks the declarations of a graph list. Collecting walks down the sections of every component holder,
enforcing climbs up from a block to the section that it stands in; both see the same stacks. But the sections of
mechanisms and of components are read alike, whereas each of the two kinds may stand in its own only. -/
namespace RobotBlocks

namespace Graph

variable {g : Graph} {id holder : BlockId} {socket : String} {rule : PlacementRule}

/-! Down a section and up from a block. -/

/-- A walk down a section meets the blocks that climb up to it, and no other. -/
theorem Tree.mem_statementStack (tree : g.Tree) :
    id ∈ g.statementStack holder socket ↔ g.enclosingSocket id = some (holder, socket) := by
  unfold statementStack
  cases held : g.plugged? holder socket with
  | none =>
    have free := tree.child?_eq_none.mp held
    refine iff_of_false List.not_mem_nil fun hangs => ?_
    induction id using tree.grounded.induction with
    | h id ih =>
      rw [tree.enclosingSocket_eq] at hangs
      obtain ⟨⟨above, hook⟩, linked, hangs⟩ := Option.bind_eq_some_iff.mp hangs
      cases hook with
      | next => exact ih above (up_of_parentLink linked) hangs
      | socket name =>
        cases hangs
        exact absurd linked (free id)
  | some first =>
    have head := tree.child?_eq_some.mp held
    have present := contains_of_parentLink head
    rw [Option.elim_some]
    induction id using tree.grounded.induction with
    | h id ih =>
      have differs : ∀ {place}, g.parentLink? id = place → place ≠ some (holder, .socket socket) → id ≠ first := by
        rintro place linked apart rfl
        exact apart (linked.symm.trans head)
      rw [tree.mem_stack present, tree.enclosingSocket_eq]
      cases linked : g.parentLink? id with
      | none => simp [differs linked (Option.some_ne_none _).symm]
      | some place =>
        obtain ⟨above, hook⟩ := place
        rw [Option.bind_some]
        cases hook with
        | next =>
          have onward : above ∈ g.stack first ↔ g.enclosingSocket above = some (holder, socket) :=
            ih above (up_of_parentLink linked)
          rw [socketAbove, ← onward]
          simp [differs linked (by simp)]
        | socket name =>
          have heads : id = first ↔ above = holder ∧ name = socket := by
            constructor
            · rintro rfl
              cases linked.symm.trans head
              exact ⟨rfl, rfl⟩
            · rintro ⟨rfl, rfl⟩
              exact tree.unshared linked head
          simp [heads, socketAbove]

theorem Tree.mem_ofKind (tree : g.Tree) {kind : Kind} :
    id ∈ g.ofKind kind ↔ ∃ block, g.block? id = some block ∧ block.kind = kind := by
  simp only [ofKind, tree.mem_filter_blocks, decide_eq_true_eq]

theorem Tree.ofKind_nodup (tree : g.Tree) (kind : Kind) : (g.ofKind kind).Nodup :=
  nodup_of_ascending (tree.filter_blocks_ascending _)

/-- Some holder has the block in one of the sections. -/
def Among (g : Graph) (sockets : List String) (id : BlockId) : Prop :=
  ∃ socket ∈ sockets, ∃ holder ∈ g.ofKind .componentHolder, id ∈ g.statementStack holder socket

instance (sockets : List String) : Decidable (g.Among sockets id) :=
  inferInstanceAs (Decidable (∃ socket ∈ sockets, ∃ holder ∈ g.ofKind .componentHolder,
    id ∈ g.statementStack holder socket))

/-- A rule is kept by the blocks in the section of its name of any holder. -/
theorem Tree.standsIn_iff (tree : g.Tree) : g.StandsIn rule id ↔ g.Among [rule.socket] id := by
  obtain ⟨head, ends, same⟩ := tree.enclosingSocket_ends id
  simp only [Among, List.mem_singleton, exists_eq_left, tree.mem_ofKind, tree.mem_statementStack, same]
  constructor
  · rintro ⟨head', holder, owner, ends', linked, there, kind⟩
    cases ends.unique ends'
    exact ⟨holder, ⟨owner, there, kind⟩, by simp [holder?, linked]⟩
  · rintro ⟨holder, ⟨owner, there, kind⟩, held⟩
    refine ⟨head, holder, owner, ends, ?_, there, kind⟩
    unfold holder? at held
    split at held
    · next linked =>
      cases held
      exact linked
    · cases held

/-- The blocks of the given sections of all holders are met once each. -/
theorem Tree.sections_nodup (tree : g.Tree) {sockets : List String} (apart : sockets.Nodup) :
    ((g.ofKind .componentHolder).flatMap fun holder => sockets.flatMap (g.statementStack holder)).Nodup := by
  refine List.nodup_flatMap.mpr ⟨fun holder _ => ?_, ?_⟩
  · refine List.nodup_flatMap.mpr ⟨fun socket _ => tree.statementStack_nodup holder socket, ?_⟩
    refine apart.imp fun differs other here there => ?_
    have same := (tree.mem_statementStack.mp here).symm.trans (tree.mem_statementStack.mp there)
    simp [differs] at same
  · refine (tree.ofKind_nodup _).imp fun differs other here there => ?_
    obtain ⟨_, -, here⟩ := List.mem_flatMap.mp here
    obtain ⟨_, -, there⟩ := List.mem_flatMap.mp there
    have same := (tree.mem_statementStack.mp here).symm.trans (tree.mem_statementStack.mp there)
    simp [differs] at same

end Graph

namespace Declarations

variable {g : Graph} {id : BlockId} {block : Block}

/-- How often declarations name a block. -/
def listings (own : Declarations) (id : BlockId) : Nat :=
  (own.components.map (·.block) ++ own.events.map (·.block) ++ own.methods.map (·.block)).count id

/-- What is read from blocks names the blocks that it is read from. -/
theorem map_read {Decl : Type} {read : Block → Option Decl} {own : Decl → BlockId}
    (names : ∀ block decl, read block = some decl → own decl = block.id) (ids : List BlockId) :
    ((ids.filterMap g.block?).filterMap read).map own
      = ids.filter fun id => ((g.block? id).bind read).isSome := by
  induction ids with
  | nil => rfl
  | cons id ids ih =>
    cases found : g.block? id with
    | none => simp [found, ih]
    | some block =>
      cases taken : read block with
      | none => simp [found, taken, ih]
      | some decl => simp [found, taken, ih, names block decl taken, Graph.block?_id found]

/-- The sections of a holder from which components are read, mechanisms first. -/
def componentSockets : List String := [Socket.mechanisms, Socket.components]

/-- The sections that are read for blocks of a kind. -/
def socketsOf : Kind → List String
  | .event => [Socket.events]
  | .component | .mechanism => componentSockets
  | _ => []

theorem map_components (g : Graph) : (collect g).components.map (·.block)
    = ((g.ofKind .componentHolder).flatMap fun holder => componentSockets.flatMap (g.statementStack holder)).filter
      fun id => ((g.block? id).bind ComponentDecl.ofBlock?).isSome := by
  have names : ∀ block decl, ComponentDecl.ofBlock? block = some decl → decl.block = block.id := by
    intro block decl read
    unfold ComponentDecl.ofBlock? at read
    split at read <;> cases read <;> rfl
  rw [collect, List.map_flatMap, List.filter_flatMap]
  refine List.flatMap_congr fun holder _ => ?_
  rw [← map_read names]
  simp [componentSockets, sectionBlocks]

theorem map_events (g : Graph) : (collect g).events.map (·.block)
    = ((g.ofKind .componentHolder).flatMap fun holder => [Socket.events].flatMap (g.statementStack holder)).filter
      fun id => ((g.block? id).bind EventDecl.ofBlock?).isSome := by
  have names : ∀ block decl, EventDecl.ofBlock? block = some decl → decl.block = block.id := by
    intro block decl read
    obtain ⟨params, -, rfl⟩ := EventDecl.ofBlock?_eq_some.mp read
    rfl
  rw [collect, List.map_flatMap, List.filter_flatMap]
  refine List.flatMap_congr fun holder _ => ?_
  rw [← map_read names]
  simp [sectionBlocks]

theorem map_methods (g : Graph) : (collect g).methods.map (·.block)
    = g.topBlocks.filter fun id => ((g.block? id).bind MethodDecl.ofBlock?).isSome := by
  refine map_read (fun block decl read => ?_) g.topBlocks
  obtain ⟨state, -, rfl⟩ := MethodDecl.ofBlock?_eq_some.mp read
  rfl

section Count

variable (tree : g.Tree) (found : g.block? id = some block)
include tree found

/-- A block is read from its sections once or not at all. -/
theorem count_read {Decl : Type} (read : Block → Option Decl) {sockets : List String} (apart : sockets.Nodup) :
    (((g.ofKind .componentHolder).flatMap fun holder => sockets.flatMap (g.statementStack holder)).filter
      fun id => ((g.block? id).bind read).isSome).count id
    = if (read block).isSome ∧ g.Among sockets id then 1 else 0 := by
  rw [((tree.sections_nodup apart).filter _).count]
  refine if_congr ?_ rfl rfl
  simp only [List.mem_filter, List.mem_flatMap, found, Option.bind_some, Graph.Among]
  constructor
  · rintro ⟨⟨holder, listed, socket, named, member⟩, reads⟩
    exact ⟨reads, socket, named, holder, listed, member⟩
  · rintro ⟨reads, socket, named, holder, listed, member⟩
    exact ⟨⟨holder, listed, socket, named, member⟩, reads⟩

theorem listings_eq : (collect g).listings id
    = (if (ComponentDecl.ofBlock? block).isSome ∧ g.Among componentSockets id then 1 else 0)
      + (if (EventDecl.ofBlock? block).isSome ∧ g.Among [Socket.events] id then 1 else 0)
      + if (MethodDecl.ofBlock? block).isSome ∧ id ∈ g.topBlocks then 1 else 0 := by
  rw [listings, List.count_append, List.count_append, map_components, map_events, map_methods,
    count_read tree found _ (by decide), count_read tree found _ (by decide),
    (tree.topBlocks_nodup.filter _).count]
  congr 1
  refine if_congr ?_ rfl rfl
  rw [List.mem_filter, found, Option.bind_some, and_comm]

end Count

end Declarations

namespace Graph

variable {g : Graph} {id : BlockId} {block : Block} {rule : PlacementRule}

/-- A component stands among mechanisms, or a mechanism among components. -/
def Crossed (g : Graph) (id : BlockId) (kind : Kind) : Prop :=
  kind = .component ∧ g.Among [Socket.mechanisms] id ∨ kind = .mechanism ∧ g.Among [Socket.components] id

section Bound

variable (tree : g.Tree) (bound : PlacementRule.ofKind? block.kind = some rule)
include tree bound

/-- Where a crossed block stands is not where its own rule wants it. -/
theorem Tree.not_standsIn_of_crossed (crossed : g.Crossed id block.kind) : ¬ g.StandsIn rule id := by
  have apart : ∀ {socket other}, g.Among [socket] id → g.Among [other] id → socket = other := by
    simp only [Among, List.mem_singleton, exists_eq_left, tree.mem_statementStack]
    rintro socket other ⟨holder, -, here⟩ ⟨holder', -, there⟩
    cases here.symm.trans there
    rfl
  rw [tree.standsIn_iff]
  intro stands
  rcases crossed with ⟨kind, among⟩ | ⟨kind, among⟩ <;>
  · rw [kind] at bound
    cases bound
    exact absurd (apart stands among) (by decide)

/-- The sections read are the one of the rule and, for components and mechanisms, that of the other kind. -/
theorem Tree.among_socketsOf :
    g.Among (Declarations.socketsOf block.kind) id ↔ g.StandsIn rule id ∨ g.Crossed id block.kind := by
  rw [tree.standsIn_iff]
  have either : g.Among Declarations.componentSockets id ↔
      g.Among [Socket.mechanisms] id ∨ g.Among [Socket.components] id := by
    simp [Among, Declarations.componentSockets]
  cases kind : block.kind with
  | event =>
    rw [kind] at bound
    cases bound
    simp [Declarations.socketsOf, Crossed]
  | component =>
    rw [kind] at bound
    cases bound
    simp [Declarations.socketsOf, Crossed, either, or_comm]
  | mechanism =>
    rw [kind] at bound
    cases bound
    simp [Declarations.socketsOf, Crossed, either]
  | _ => rw [kind] at bound; cases bound

/-- Blocks that are bound to a section are listed once from the sections that are read for their kind. -/
theorem Tree.listings_bound (found : g.block? id = some block) (usual : block.extra.Like (.default block.kind)) :
    (Declarations.collect g).listings id = if g.Among (Declarations.socketsOf block.kind) id then 1 else 0 := by
  rw [Declarations.listings_eq tree found]
  cases kind : block.kind with
  | event | component | mechanism =>
    rw [kind] at usual
    cases carried : block.extra <;> rw [carried] at usual <;> try cases usual
    simp only [ComponentDecl.ofBlock?, EventDecl.ofBlock?, MethodDecl.ofBlock?, carried, Option.isSome_some,
      Option.isSome_none, true_and, Bool.false_eq_true, false_and, if_false, Nat.add_zero, Nat.zero_add]
    exact if_congr Iff.rfl rfl rfl
  | _ => rw [kind] at bound; cases bound

end Bound

/-- What stands in its section is listed once. What stands elsewhere is not, unless it is a component among
mechanisms or a mechanism among components: that one is listed once, though the check takes it out. -/
theorem Assembled.listed_iff_placed (reached : g.Assembled) (usual : g.Usual) (found : g.block? id = some block)
    (bound : PlacementRule.ofKind? block.kind = some rule) :
    ∃ placement g', g.checkPlacement id = .ok (placement, g') ∧
      ((Declarations.collect g).listings id = (if placement = .valid then 1 else 0) ↔ ¬ g.Crossed id block.kind) ∧
      (g.Crossed id block.kind →
        (Declarations.collect g).listings id = 1 ∧ placement = .detached rule.message) := by
  have tree := reached.tree
  have counts := tree.listings_bound bound found (usual.like found)
  have among : g.Among (Declarations.socketsOf block.kind) id ↔ g.StandsIn rule id ∨ g.Crossed id block.kind :=
    tree.among_socketsOf bound
  by_cases stands : g.StandsIn rule id
  · obtain ⟨g', checked, -⟩ := tree.checkPlacement_placed found bound stands
    have straight : ¬ g.Crossed id block.kind := fun crossed => tree.not_standsIn_of_crossed bound crossed stands
    rw [if_pos (among.mpr (.inl stands))] at counts
    exact ⟨.valid, g', checked, iff_of_true counts straight, fun crossed => absurd crossed straight⟩
  · obtain ⟨g', checked, -⟩ := tree.checkPlacement_astray found bound stands
    refine ⟨_, g', checked, ?_, fun crossed => ⟨?_, rfl⟩⟩
    · rw [if_neg nofun, counts, ite_eq_right_iff, among]
      simp [stands]
    · rw [counts, if_pos (among.mpr (.inr crossed))]

/-- A mechanism is plugged into the section of components. -/
theorem listed_iff_placed_mechanism :
    let edits : List Mutation :=
      [.add .componentHolder .none, .add .mechanism (.mechanism {}), .add .component (.component {}),
        .connectSocket ⟨0⟩ Socket.components ⟨1⟩, .connectNext ⟨1⟩ ⟨2⟩]
    let g := edits.foldl Graph.mutate Graph.empty
    ∃ g', g.checkPlacement ⟨1⟩ =
        .ok (.detached "Mechanisms can only go in the mechanisms section of the robot", g') ∧
      (Declarations.collect g).listings ⟨1⟩ = 1 := by
  intro edits g
  have reached : g.Assembled := Assembled.empty.foldl_mutate edits
  obtain ⟨block, found, kind⟩ : ∃ block, g.block? ⟨1⟩ = some block ∧ block.kind = .mechanism :=
    Option.map_eq_some_iff.mp (by decide +kernel)
  obtain ⟨rule, bound⟩ : ∃ rule, PlacementRule.ofKind? block.kind = some rule := by
    rw [kind]
    exact ⟨_, rfl⟩
  obtain ⟨placement, g', checked, -, crossed⟩ := reached.listed_iff_placed (by decide +kernel) found bound
  obtain ⟨once, rfl⟩ := crossed (.inr ⟨kind, by decide +kernel⟩)
  rw [kind] at bound
  cases bound
  exact ⟨g', checked, once⟩

end Graph
end RobotBlocks
