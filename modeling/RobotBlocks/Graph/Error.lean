import RobotBlocks.Block.Kind
import RobotBlocks.Block.Id

/-! Why an edit of a graph is refused. -/
namespace RobotBlocks

/-- What is wrong with a link. -/
inductive LinkFault where
  /-- The child is the parent or one of its ancestors. -/
  | cycle (child parent : BlockId)
  | valueInChain
  | valueInStatement (child : BlockId) (socket : String)
  | hasParent (child : BlockId)
  | occupied (parent occupant : BlockId)
  | tooManyValues (block : BlockId) (socket : String) (count : Nat)
  /-- The socket would disappear and holds a block. -/
  | stillConnected (block : BlockId) (socket : String)
  deriving DecidableEq, Repr

def LinkFault.message : LinkFault → String
  | .cycle child parent => child.label ++ " is " ++ parent.label ++ " or one of its ancestors"
  | .valueInChain => "value blocks do not form statement chains"
  | .valueInStatement child socket =>
    "value block " ++ child.label ++ " cannot fill statement input '" ++ socket ++ "'"
  | .hasParent child => child.label ++ " already has a parent"
  | .occupied parent occupant => parent.label ++ " already holds " ++ occupant.label ++ " there"
  | .tooManyValues block socket count =>
    "value input '" ++ socket ++ "' of " ++ block.label ++ " holds " ++ toString count ++ " blocks"
  | .stillConnected block socket =>
    "input '" ++ socket ++ "' of " ++ block.label ++ " is still connected"

/-- What an operation needs a block to be. -/
inductive Role where
  | declaration
  | reference
  deriving DecidableEq, Repr

def Role.title : Role → String
  | .declaration => "event or method definition"
  | .reference => "method call or event handler"

inductive GraphError where
  | blockNotFound (id : BlockId)
  | duplicateBlock (id : BlockId)
  /-- No fresh id could follow this one. -/
  | idOverflow (id : BlockId)
  | unknownSocket (id : BlockId) (socket : String)
  | invalidLink (fault : LinkFault)
  | wrongKind (id : BlockId) (actual : Kind) (expected : Role)
  /-- A parameter editor without its container. -/
  | missingContainer
  deriving DecidableEq, Repr

def GraphError.message : GraphError → String
  | .blockNotFound id => "block not found: " ++ id.label
  | .duplicateBlock id => "duplicate block id: " ++ id.label
  | .idOverflow id => "block id out of range: " ++ id.label
  | .unknownSocket id socket => "block " ++ id.label ++ " has no input named '" ++ socket ++ "'"
  | .invalidLink fault => "invalid link: " ++ fault.message
  | .wrongKind id actual expected =>
    "block " ++ id.label ++ " is a " ++ actual.title ++ ", expected " ++ expected.title
  | .missingContainer => "mutator graph has no parameter container"

end RobotBlocks
