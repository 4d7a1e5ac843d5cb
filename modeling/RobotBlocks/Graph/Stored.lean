import RobotBlocks.Graph.Edit
import RobotBlocks.Graph.Spots

/-! Storing a graph as a forest and rebuilding it. Rebuilding accepts no id twice, no socket that
a block does not declare, and no more than one block in a value socket; it queues one creation for
each block, a block before what hangs from it. -/
namespace RobotBlocks.Graph

/-! Storing. -/

/-- The stack from a block on, with at most so many levels of plugged chains. -/
def treesWithin (g : Graph) : Nat → BlockId → List BlockTree
  | 0, _ => []
  | depth + 1, first => (g.stack first).filterMap fun id =>
    (g.block? id).map fun block =>
      .node id block.kind block.fields block.extra (block.sockets.filterMap fun socket =>
        (g.plugged? id socket.name).map fun child => (socket.name, g.treesWithin depth child))

/-- The stacks of all top blocks, in ascending order of their ids. -/
def toForest (g : Graph) : Forest := ⟨g.topBlocks.map (g.treesWithin g.size)⟩

/-! Rebuilding. -/

/-- The kind of a socket into which a chain of so many blocks may go. -/
def checkInput (block : Block) (socket : String) (count : Nat) : Except GraphError Unit :=
  match block.socket? socket with
  | none => .error (.unknownSocket block.id socket)
  | some ⟨_, .value⟩ =>
    if 1 < count then .error (.invalidLink (.tooManyValues block.id socket count)) else .ok ()
  | some ⟨_, .statement⟩ => .ok ()

mutual

/-- Adds a block and all that hangs from it. -/
def loadTree (g : Graph) : BlockTree → Except GraphError Graph
  | .node id kind fields extra inputs => do
    let block := (BlockTree.node id kind fields extra inputs).block
    let g ← g.insertBlock block
    loadInputs g block inputs

def loadInputs (g : Graph) (block : Block) : List (String × List BlockTree) → Except GraphError Graph
  | [] => return g
  | (socket, chain) :: inputs => do
    checkInput block socket chain.length
    let g ← loadChain g chain
    let g ← match chain with
      | [] => pure g
      | head :: _ => g.attach block.id (.socket socket) head.id
    loadInputs g block inputs

/-- Adds a chain whose first block stays a top block. -/
def loadChain (g : Graph) : List BlockTree → Except GraphError Graph
  | [] => return g
  | head :: rest => do
    let g ← loadTree g head
    loadBelow g head.id rest

/-- Adds a chain below a block. -/
def loadBelow (g : Graph) (above : BlockId) : List BlockTree → Except GraphError Graph
  | [] => return g
  | tree :: rest => do
    let g ← loadTree g tree
    let g ← g.attach above .next tree.id
    loadBelow g tree.id rest

end

/-- The graph that a forest stores. -/
def ofForest (forest : Forest) : Except GraphError Graph :=
  forest.chains.foldlM loadChain empty

/-! Rebuilding in one pass. If the ids of a forest ascend, its trees stand in the order of the nodes,
and no node has to be searched for. -/

/-- Whether no label of a tree stands twice and its sockets take what hangs from them. -/
def treeFits : BlockTree → Bool
  | .node id kind fields extra inputs =>
    let block := (BlockTree.node id kind fields extra inputs).block
    decide (fields.map (·.1)).Nodup && decide (inputs.map (·.1)).Nodup &&
      inputs.all fun (socket, chain) => (checkInput block socket chain.length).isOk

/-- The number above ids that ascend from a number on and have successors. -/
def numberAbove? (floor : Nat) : List BlockId → Option Nat
  | [] => some floor
  | id :: ids =>
    if floor ≤ id.number ∧ id.number < BlockId.last.number then numberAbove? (id.number + 1) ids
    else none

/-- The graph that a forest stores, if its ids ascend and its trees fit. -/
def assemble? (forest : Forest) : Option Graph :=
  let spots := forest.spots
  (numberAbove? 0 (spots.map Spot.id)).bind fun nextNumber =>
    if spots.all fun spot => treeFits spot.tree then
      some { nodes := spots.map Spot.node, nextNumber
             pending := { back := (spots.map Spot.creation).reverse } }
    else none

/-- The graph that a forest stores, assembled in one pass where that can be done. -/
def rebuild (forest : Forest) : Except GraphError Graph :=
  match assemble? forest with
  | some g => .ok g
  | none => ofForest forest

end RobotBlocks.Graph
