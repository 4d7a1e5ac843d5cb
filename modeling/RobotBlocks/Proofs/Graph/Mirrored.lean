import RobotBlocks.Declaration
import RobotBlocks.Proofs.Graph.RoundTrip

/-! What mirror images have in common. Two graphs that agree on all that is stored have the same
sections and the same tops, and declare the same. -/
namespace RobotBlocks.Graph.Mirrors

variable {g h : Graph} (mirrors : g.Mirrors h)
include mirrors

theorem bind_block {α : Type} {read : Block → Option α} (ignores : ∀ block : Block, read block.cleared = read block)
    (id : BlockId) : (h.block? id).bind read = (g.block? id).bind read := by
  have same := mirrors.map_block ignores id
  simpa [Option.bind_map, Function.comp_def] using congrArg (Option.bind · fun answer => answer) same

/-- What is done with a block is done with its image; without the one there is no other. -/
theorem get_bind {α : Type} {next : Block → Except GraphError α}
    (ignores : ∀ block : Block, next block.cleared = next block) (id : BlockId) :
    (h.get id >>= next) = g.get id >>= next := by
  have same := mirrors.map_block ignores id
  unfold Graph.get
  cases there : h.block? id with
  | none =>
    rw [there, Option.map_none] at same
    rw [Option.map_eq_none_iff.mp same.symm]
  | some image =>
    rw [there, Option.map_some] at same
    obtain ⟨block, here, alike⟩ := Option.map_eq_some_iff.mp same.symm
    rw [here]
    exact alike.symm

/-- What is read off listed blocks is read off their images. -/
theorem read_blocks {α : Type} {read : Block → Option α} (ignores : ∀ block : Block, read block.cleared = read block)
    (ids : List BlockId) :
    (ids.filterMap h.block?).filterMap read = (ids.filterMap g.block?).filterMap read := by
  rw [List.filterMap_filterMap, List.filterMap_filterMap]
  exact List.filterMap_congr fun id _ => mirrors.bind_block ignores id

variable (tree : g.Tree) (tree' : h.Tree)
include tree tree'

theorem plugged? (id : BlockId) (socket : String) : h.plugged? id socket = g.plugged? id socket :=
  mirrors.child? tree tree' (.socket socket)

theorem statementStack (id : BlockId) (socket : String) :
    h.statementStack id socket = g.statementStack id socket := by
  have stack : h.stack = g.stack := funext (mirrors.stack tree tree')
  rw [Graph.statementStack, Graph.statementStack, mirrors.plugged? tree tree', stack]

theorem topBlocks : h.topBlocks = g.topBlocks := by
  simp only [tree.topBlocks_eq, tree'.topBlocks_eq, mirrors.ids, mirrors.links]

theorem ofKind (kind : Kind) : h.ofKind kind = g.ofKind kind := by
  refine eq_of_ascending (tree'.filter_blocks_ascending _) (tree.filter_blocks_ascending _) fun id => ?_
  rw [Graph.ofKind, Graph.ofKind, tree.mem_filter_blocks, tree'.mem_filter_blocks]
  have same : (h.block? id).map Block.kind = (g.block? id).map Block.kind :=
    mirrors.map_block (fun _ => rfl) id
  simp only [decide_eq_true_eq, ← Option.map_eq_some_iff, same]

theorem read_section {α : Type} {read : Block → Option α} (ignores : ∀ block : Block, read block.cleared = read block)
    (holder : BlockId) (socket : String) :
    (Declarations.sectionBlocks h holder socket).filterMap read
      = (Declarations.sectionBlocks g holder socket).filterMap read := by
  rw [Declarations.sectionBlocks, Declarations.sectionBlocks, mirrors.statementStack tree tree']
  exact mirrors.read_blocks ignores _

/-- Mirror images declare the same. -/
theorem collect : Declarations.collect h = .collect g := by
  have component : ∀ block : Block, ComponentDecl.ofBlock? block.cleared = ComponentDecl.ofBlock? block :=
    fun _ => rfl
  rw [Declarations.collect, Declarations.collect, mirrors.ofKind tree tree', mirrors.topBlocks tree tree',
    Declarations.mk.injEq]
  refine ⟨List.flatMap_congr fun holder _ => ?_, List.flatMap_congr fun holder _ => ?_, ?_⟩
  · rw [List.filterMap_append, List.filterMap_append, mirrors.read_section tree tree' component,
      mirrors.read_section tree tree' component]
  · exact mirrors.read_section tree tree' (fun _ => rfl) holder _
  · exact mirrors.read_blocks (fun _ => rfl) _

end RobotBlocks.Graph.Mirrors
