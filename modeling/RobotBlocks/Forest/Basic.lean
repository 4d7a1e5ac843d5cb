import RobotBlocks.Block.Basic

/-! The stored form of a graph: stacks of block trees. A chain of statements is a flat list, so
trees nest only as deep as blocks are plugged into sockets. Sockets and warnings are not stored. -/
namespace RobotBlocks

inductive BlockTree where
  /-- A block and the chains in its sockets, under the names of the sockets. -/
  | node (id : BlockId) (kind : Kind) (fields : Labelled String) (extra : ExtraState)
      (inputs : List (String × List BlockTree))
  deriving Repr, Inhabited

namespace BlockTree

def id : BlockTree → BlockId
  | node id _ _ _ _ => id

mutual

/-- The ids of a tree, a block before what hangs from it. -/
def ids : BlockTree → List BlockId
  | node id _ _ _ inputs => id :: inputIds inputs

def inputIds : List (String × List BlockTree) → List BlockId
  | [] => []
  | (_, chain) :: inputs => chainIds chain ++ inputIds inputs

def chainIds : List BlockTree → List BlockId
  | [] => []
  | tree :: chain => ids tree ++ chainIds chain

end

/-- The block of a tree: stored fields come first, and those that its kind and state add to them
follow. -/
def block : BlockTree → Block
  | node id kind fields extra _ =>
    let fresh := Block.create id kind extra
    { fresh with
      fields := fresh.fields.foldl (fun all (name, value) => all.putNew name value) fields }

end BlockTree

/-- The stacks of a graph, each a chain of trees. -/
structure Forest where
  chains : List (List BlockTree) := []
  deriving Repr, Inhabited

namespace Forest

/-- The ids of all blocks, stack by stack. -/
def ids (forest : Forest) : List BlockId := forest.chains.flatMap BlockTree.chainIds

/-- The number of blocks at every level. -/
def size (forest : Forest) : Nat := forest.ids.length

def isEmpty (forest : Forest) : Bool := forest.chains.isEmpty

end Forest
end RobotBlocks
