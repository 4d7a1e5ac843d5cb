import RobotBlocks.Forest.Basic
import RobotBlocks.Graph.Basic

/-! The trees of a forest at every level, each with the trees below it in its chain and with the link
that it hangs from: one for each block of the graph that the forest stores. -/
namespace RobotBlocks

/-- A tree somewhere in a forest. -/
structure Spot where
  tree : BlockTree
  below : List BlockTree
  parent : Option (BlockId × Link)

namespace BlockTree

def kind : BlockTree → Kind
  | node _ kind _ _ _ => kind

def extra : BlockTree → ExtraState
  | node _ _ _ extra _ => extra

def inputs : BlockTree → List (String × List BlockTree)
  | node _ _ _ _ inputs => inputs

mutual

/-- A tree in front of the trees below it, then the trees inside. -/
def spots (parent : Option (BlockId × Link)) (below : List BlockTree) : BlockTree → List Spot
  | node id kind fields extra inputs =>
    ⟨node id kind fields extra inputs, below, parent⟩ :: inputSpots id inputs

def inputSpots (owner : BlockId) : List (String × List BlockTree) → List Spot
  | [] => []
  | (name, chain) :: inputs => chainSpots (some (owner, .socket name)) chain ++ inputSpots owner inputs

def chainSpots (parent : Option (BlockId × Link)) : List BlockTree → List Spot
  | [] => []
  | tree :: below => spots parent below tree ++ chainSpots (some (tree.id, .next)) below

end

end BlockTree

namespace Spot

variable (spot : Spot)

def id : BlockId := spot.tree.id

/-- The node of the block, as it stands once everything hangs from its link. -/
def node : Node := ⟨spot.tree.block, spot.parent⟩

/-- The event that tells of the block. -/
def creation : Event := .onBlock spot.node.block.id spot.node.block.kind .created

end Spot

def Forest.spots (forest : Forest) : List Spot := forest.chains.flatMap (BlockTree.chainSpots none)

end RobotBlocks
