import RobotBlocks.Block.Basic
import RobotBlocks.Event
import RobotBlocks.Graph.Error

/-! The graph of the blocks of one module. Every node holds its block and the link that leads to
it from its parent; a block without such a link is a top block. The nodes stand in ascending order
of their ids.

One link for each node stands for the whole list of links. A link is only ever set on a block
without one: whatever is hung somewhere, and whatever has to make room for it or takes its place,
is detached first, and a stored block that already hangs somewhere is refused. So no second link
ever leads to a block, and to set the link and to add one to the list are the same. That links
close no cycle, that no two leave from one place and that sockets are declared is not built in but
kept by the edits. -/
namespace RobotBlocks

/-- How a child hangs from its parent. -/
inductive Link where
  /-- The child is the statement after the parent. -/
  | next
  /-- The child is plugged into a socket of the parent. -/
  | socket (name : String)
  deriving DecidableEq, Repr

structure Node where
  block : Block
  parent : Option (BlockId × Link) := none
  deriving DecidableEq, Repr

def Node.id (node : Node) : BlockId := node.block.id

structure Graph where
  nodes : List Node := []
  /-- The number above all ids in use, as far as ids reach. -/
  nextNumber : Nat := 0
  pending : EventQueue := {}
  deriving DecidableEq, Repr

namespace Graph

def empty : Graph := {}

instance : Inhabited Graph := ⟨empty⟩

def size (g : Graph) : Nat := g.nodes.length

def isEmpty (g : Graph) : Bool := g.nodes.isEmpty

def node? (g : Graph) (id : BlockId) : Option Node := g.nodes.find? fun node => node.id = id

def contains (g : Graph) (id : BlockId) : Bool := (g.node? id).isSome

def block? (g : Graph) (id : BlockId) : Option Block := (g.node? id).map (·.block)

/-- The block, or the refusal that there is none. -/
def get (g : Graph) (id : BlockId) : Except GraphError Block :=
  match g.block? id with
  | some block => .ok block
  | none => .error (.blockNotFound id)

/-- All blocks, in ascending order of their ids. -/
def blocks (g : Graph) : List Block := g.nodes.map (·.block)

def ids (g : Graph) : List BlockId := g.nodes.map (·.id)

def ofKind (g : Graph) (kind : Kind) : List BlockId :=
  (g.blocks.filter fun block => block.kind = kind).map (·.id)

/-! Neighbours. -/

/-- The parent and the link that leads from it to the block. -/
def parentLink? (g : Graph) (id : BlockId) : Option (BlockId × Link) :=
  (g.node? id).bind (·.parent)

def parent? (g : Graph) (id : BlockId) : Option BlockId := (g.parentLink? id).map (·.1)

/-- The statement above a block. -/
def previous? (g : Graph) (id : BlockId) : Option BlockId :=
  match g.parentLink? id with
  | some (parent, .next) => some parent
  | _ => none

/-- The block to which a link leads. -/
def child? (g : Graph) (parent : BlockId) (link : Link) : Option BlockId :=
  (g.nodes.find? fun node => node.parent = some (parent, link)).map (·.id)

/-- The statement below a block. -/
def next? (g : Graph) (id : BlockId) : Option BlockId := g.child? id .next

/-- The block plugged into a socket. -/
def plugged? (g : Graph) (id : BlockId) (socket : String) : Option BlockId :=
  g.child? id (.socket socket)

/-- Blocks without a parent, in ascending order of their ids. -/
def topBlocks (g : Graph) : List BlockId :=
  (g.nodes.filter fun node => node.parent.isNone).map (·.id)

/-! Walks. A walk visits no block twice, so the number of blocks bounds its depth. -/

def stackWithin (g : Graph) : Nat → BlockId → List BlockId
  | 0, _ => []
  | depth + 1, id => id :: (g.next? id).elim [] (g.stackWithin depth)

/-- A block and the statements below it. -/
def stack (g : Graph) (first : BlockId) : List BlockId :=
  if g.contains first then g.stackWithin g.size first else []

/-- The statements that hang from a socket. -/
def statementStack (g : Graph) (id : BlockId) (socket : String) : List BlockId :=
  (g.plugged? id socket).elim [] g.stack

/-- The last statement of a stack. -/
def lastInStack (g : Graph) (first : BlockId) : BlockId := (g.stack first).getLast?.getD first

def walkWithin (g : Graph) : Nat → BlockId → List BlockId
  | 0, _ => []
  | depth + 1, id =>
    let inside := ((g.block? id).elim [] (·.sockets)).flatMap fun socket =>
      (g.plugged? id socket.name).elim [] (g.walkWithin depth)
    id :: inside ++ (g.next? id).elim [] (g.walkWithin depth)

/-- A block, then what hangs from its sockets in their order, then the statements below it. -/
def walk (g : Graph) (root : BlockId) : List BlockId :=
  if g.contains root then g.walkWithin g.size root else []

/-- The walks of all top blocks in ascending order. -/
def walkAll (g : Graph) : List BlockId := g.topBlocks.flatMap g.walk

def ancestorsWithin (g : Graph) : Nat → BlockId → List BlockId
  | 0, _ => []
  | depth + 1, id =>
    match g.parent? id with
    | some parent => parent :: g.ancestorsWithin depth parent
    | none => []

/-- The parent of a block, the parent of the parent, and so on up to a top block. -/
def ancestors (g : Graph) (id : BlockId) : List BlockId := g.ancestorsWithin g.size id

/-- The nearest ancestor that satisfies a test. -/
def nearestAncestor (g : Graph) (id : BlockId) (test : Block → Bool) : Option BlockId :=
  (g.ancestors id).find? fun ancestor => (g.block? ancestor).any test

def enclosingWithin (g : Graph) : Nat → BlockId → Option (BlockId × String)
  | 0, _ => none
  | depth + 1, id =>
    match g.parentLink? id with
    | some (parent, .next) => g.enclosingWithin depth parent
    | some (parent, .socket name) => some (parent, name)
    | none => none

/-- The socket from which the stack of a block hangs. -/
def enclosingSocket (g : Graph) (id : BlockId) : Option (BlockId × String) :=
  g.enclosingWithin g.size id

def isAncestorOrSelf (g : Graph) (candidate descendant : BlockId) : Bool :=
  candidate = descendant || (g.ancestors descendant).contains candidate

/-! Well-formedness. -/

/-- Whether a link into a block is one that its parent offers. -/
def linkDeclared (g : Graph) : BlockId × Link → Bool
  | (parent, .next) => g.contains parent
  | (parent, .socket name) => (g.block? parent).any (·.hasSocket name)

/-- Every link leads from a socket that its parent declares or from a block that is there, no two
blocks share a link, ids ascend, and the counter is above all of them unless it has reached the
last id. -/
def consistent (g : Graph) : Bool :=
  let links := g.nodes.filterMap (·.parent)
  decide (g.ids.Pairwise fun a b => a.number < b.number)
    && links.all g.linkDeclared
    && decide links.Nodup
    && g.ids.all fun id => id.number < g.nextNumber || g.nextNumber = BlockId.last.number

end Graph
end RobotBlocks
