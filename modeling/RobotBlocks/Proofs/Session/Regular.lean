import RobotBlocks.Proofs.Graph.Normal
import RobotBlocks.Proofs.Graph.Values
import RobotBlocks.Proofs.Session.Rearrangement

/-! Documents as the editor writes them: every block has the kind of state that its own kind asks for,
and the arguments of a call are values and calls. Their graphs have nothing but arguments below an
argument. -/
namespace RobotBlocks

/-- States of one shape, whatever they hold. -/
def ExtraState.Like : ExtraState → ExtraState → Prop
  | .none, .none | .event _, .event _ | .method _, .method _ | .call _, .call _
  | .component _, .component _ | .mechanism _, .mechanism _ | .paramItem _, .paramItem _ => True
  | _, _ => False

instance (a b : ExtraState) : Decidable (a.Like b) :=
  decidable_of_iff (a.ctorIdx = b.ctorIdx) (by cases a <;> cases b <;> simp [ExtraState.Like, ExtraState.ctorIdx])

/-- The state of a method is usual for a definition alone. -/
theorem ExtraState.kind_of_method {kind : Kind} {state : MethodState}
    (usual : (ExtraState.method state).Like (.default kind)) : kind = .methodDef := by
  cases kind with
  | methodDef => rfl
  | _ => cases usual

/-- The usual state of a handler is a call. -/
theorem ExtraState.call_of_handler {extra : ExtraState} (usual : extra.Like (.default .eventHandler)) :
    ∃ call, extra = .call call := by
  cases extra with
  | call state => exact ⟨state, rfl⟩
  | _ => cases usual

/-- Every block has a state of the shape that is usual for its kind. -/
def Graph.Usual (g : Graph) : Prop := ∀ block ∈ g.blocks, block.extra.Like (.default block.kind)

instance (g : Graph) : Decidable g.Usual :=
  inferInstanceAs (Decidable (∀ block ∈ g.blocks, block.extra.Like (.default block.kind)))

theorem Graph.Usual.like {g : Graph} {id : BlockId} {block : Block} (usual : g.Usual)
    (found : g.block? id = some block) : block.extra.Like (.default block.kind) := by
  exact usual block (Graph.mem_blocks found)

/-- What a call takes as an argument. -/
def Kind.isArgument (kind : Kind) : Bool := kind.isValue || kind = .methodCall

/-- The state has the shape that is usual for the kind, and a call has values and calls for its
arguments. -/
structure BlockTree.Regular (tree : BlockTree) : Prop where
  usual : tree.extra.Like (.default tree.kind)
  arguments : tree.kind = .methodCall → ∀ name chain, (name, chain) ∈ tree.inputs →
    ∀ value ∈ chain, value.kind.isArgument = true

/-- All trees at every level are regular. -/
def Forest.Regular (forest : Forest) : Prop := ∀ spot ∈ forest.spots, spot.tree.Regular

/-- All calls have values and calls for their arguments. -/
def Forest.Argued (forest : Forest) : Prop :=
  ∀ spot ∈ forest.spots, spot.tree.kind = .methodCall → ∀ name chain, (name, chain) ∈ spot.tree.inputs →
    ∀ value ∈ chain, value.kind.isArgument = true

instance (forest : Forest) : Decidable forest.Argued :=
  decidable_of_iff (∀ spot ∈ forest.spots, spot.tree.kind = .methodCall → ∀ input ∈ spot.tree.inputs,
    ∀ value ∈ input.2, value.kind.isArgument = true) (by simp only [Forest.Argued, Prod.forall])

theorem Forest.Regular.argued {forest : Forest} (regular : forest.Regular) : forest.Argued :=
  fun spot member => (regular spot member).arguments

namespace Graph

variable {g h : Graph} {id r parent child value : BlockId} {i : Nat}

/-- The arguments of calls, and what follows them, are values and calls. -/
def Argued (g : Graph) : Prop :=
  ∀ id owner i, g.enclosingSocket id = some (owner, Socket.arg i) →
    ∃ block, g.block? id = some block ∧ block.kind.isArgument = true

structure Regular (g : Graph) : Prop where
  sound : g.Sound
  single : g.SingleValues
  arguments : ∀ {child parent i}, g.parentLink? child = some (parent, .socket (Socket.arg i)) →
    ∃ block, g.block? child = some block ∧ block.kind.isArgument = true

/-- What hangs from an argument, in whatever depth, is an argument or follows one. -/
theorem Argued.below_argument (argued : g.Argued) (sound : g.Sound)
    (linked : g.parentLink? value = some (r, .socket (Socket.arg i))) (climbs : g.Climbs id value) :
    ∃ owner j, g.enclosingSocket id = some (owner, Socket.arg j) := by
  induction climbs using Relation.ReflTransGen.head_induction_on with
  | refl => exact ⟨r, i, sound.tree.enclosingSocket_of_link linked⟩
  | @head id parent step _ ih =>
    obtain ⟨hook, hung⟩ := step.exists_link
    obtain ⟨owner, j, inside⟩ := ih
    have above := sound.tree.enclosingSocket_of_link hung
    cases hook with
    | next => exact ⟨owner, j, above.trans inside⟩
    | socket name =>
      obtain ⟨block, found, kind⟩ := argued parent owner j inside
      obtain ⟨socket, declared, rfl⟩ := sound.arg_of_link found hung
      cases is : block.kind with
      | methodCall =>
        rw [is] at declared
        simp only [Socket.declared, List.mem_map] at declared
        obtain ⟨k, -, rfl⟩ := declared
        exact ⟨parent, k, above⟩
      | number | text | boolean | variableGet =>
        rw [is] at declared
        cases declared
      | _ => rw [is] at kind; cases kind

namespace Regular

variable (regular : g.Regular)
include regular

theorem reference : ∀ r ∈ g.references, ∃ block, g.block? r = some block ∧ block.kind.isReference = true :=
  fun _ => regular.sound.tree.mem_filter_blocks.mp

/-- No statement follows an argument. -/
theorem next?_argument (linked : g.parentLink? child = some (parent, .socket (Socket.arg i))) :
    g.next? child = none := by
  obtain ⟨owner, found, -, offered⟩ := regular.sound.owner_of_arg linked
  exact regular.single linked found offered

/-- Nothing follows an argument, so what stands in an argument socket hangs from it. -/
theorem link_of_enclosing (inside : g.enclosingSocket id = some (parent, Socket.arg i)) :
    g.parentLink? id = some (parent, .socket (Socket.arg i)) := by
  induction id using regular.sound.tree.grounded.induction with
  | h id ih =>
    rw [regular.sound.tree.enclosingSocket_eq] at inside
    obtain ⟨⟨above, hook⟩, linked, inside⟩ := Option.bind_eq_some_iff.mp inside
    cases hook with
    | next =>
      have argument := ih above (up_of_parentLink linked) inside
      have follows := regular.sound.tree.child?_eq_some.mpr linked
      cases (regular.next?_argument argument).symm.trans follows
    | socket name =>
      cases inside
      exact linked

theorem argued : g.Argued := fun _ _ _ inside => regular.arguments (regular.link_of_enclosing inside)

/-- Below an argument there are arguments alone. -/
theorem below_argument (linked : g.parentLink? value = some (r, .socket (Socket.arg i)))
    (climbs : g.Climbs id value) :
    ∃ parent j, g.parentLink? id = some (parent, .socket (Socket.arg j)) := by
  obtain ⟨owner, j, inside⟩ := regular.argued.below_argument regular.sound linked climbs
  exact ⟨owner, j, regular.link_of_enclosing inside⟩

end Regular

theorem Regular.ofArgued {forest : Forest} (loaded : ofForest forest = .ok g)
    (distinct : forest.Distinct) (argued : forest.Argued) : g.Regular := by
  have sound := Sound.ofForest loaded
  have spots : ∀ {id block}, g.block? id = some block →
      ∃ spot ∈ forest.spots, spot.id = id ∧ spot.tree.block = block := by
    intro id block found
    obtain ⟨spot, member, rfl⟩ := spot_of_contains loaded (contains_iff_block.mpr ⟨block, found⟩)
    rw [block?, node?_spot loaded member] at found
    exact ⟨spot, member, rfl, Option.some.inj found⟩
  refine ⟨sound, singleValues_loaded loaded distinct, fun {child parent i} linked => ?_⟩
  obtain ⟨owner, found, kind, -⟩ := sound.owner_of_arg linked
  obtain ⟨block, here⟩ := contains_iff_block.mp (contains_of_parentLink linked)
  obtain ⟨spot, member, rfl, rfl⟩ := spots here
  rw [parentLink?, node?_spot loaded member] at linked
  refine ⟨_, here, ?_⟩
  rcases Forest.hangsIn_spots distinct member with ⟨top, -⟩ | ⟨up, present, hook, hung, shows⟩
  · cases top.symm.trans linked
  · obtain ⟨rfl, rfl⟩ := Prod.mk.inj (Option.some.inj (hung.symm.trans linked))
    rw [block?, node?_spot loaded present] at found
    cases found
    have calls : up.tree.kind = .methodCall := (BlockTree.kind_block _).symm.trans kind
    change (Labelled.get? up.tree.inputs _).getD [] = _ at shows
    cases listed : Labelled.get? up.tree.inputs (Socket.arg i) with
    | none => simp [listed] at shows
    | some chain =>
      rw [listed, Option.getD_some] at shows
      rw [BlockTree.kind_block]
      exact argued up present calls _ _ (Labelled.mem_of_get? listed) spot.tree
        (shows ▸ List.mem_cons_self ..)

theorem Regular.ofForest {forest : Forest} (loaded : ofForest forest = .ok g)
    (distinct : forest.Distinct) (regular : forest.Regular) : g.Regular :=
  .ofArgued loaded distinct regular.argued

end Graph
end RobotBlocks
