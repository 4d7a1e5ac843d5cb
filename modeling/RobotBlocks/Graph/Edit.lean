import RobotBlocks.Graph.Basic

/-! Edits of a graph. An edit either is refused and leaves no trace, or gives the new graph, to
whose queue one event for each effect has been added. -/
namespace RobotBlocks.Graph

/-! Events. -/

def push (g : Graph) (event : Event) : Graph := { g with pending := g.pending.push event }

def emit (g : Graph) (id : BlockId) (kind : Kind) (payload : Payload) : Graph :=
  g.push (.onBlock id kind payload)

/-- The waiting events, and the graph without them. -/
def takeEvents (g : Graph) : List Event × Graph := (g.pending.toList, { g with pending := {} })

/-! Single nodes. -/

def updateNode (g : Graph) (id : BlockId) (change : Node → Node) : Graph :=
  { g with nodes := g.nodes.map fun node => if node.id = id then change node else node }

def updateBlock (g : Graph) (id : BlockId) (change : Block → Block) : Graph :=
  g.updateNode id fun node => { node with block := change node.block }

def setParent (g : Graph) (id : BlockId) (parent : Option (BlockId × Link)) : Graph :=
  g.updateNode id fun node => { node with parent }

/-- Hangs a child from a parent. -/
def link (g : Graph) (parent : BlockId) (link : Link) (child : BlockId) : Graph :=
  g.setParent child (some (parent, link))

/-! Creation. -/

/-- Puts a node at its place in the ascending order. -/
def insertNode (node : Node) : List Node → List Node
  | [] => [node]
  | other :: rest =>
    if node.id.number < other.id.number then node :: other :: rest
    else other :: insertNode node rest

/-- The lowest number from `start` on that no block has. One more candidate than there are blocks
is enough to find one. -/
def lowestFree (g : Graph) : Nat → Nat → Nat
  | 0, start => start
  | tries + 1, start => if g.contains ⟨start⟩ then g.lowestFree tries (start + 1) else start

/-- The id above all ids in use; once the last id is in use, the lowest free one. -/
def freshId (g : Graph) : BlockId :=
  if g.contains ⟨g.nextNumber⟩ then ⟨g.lowestFree g.size 0⟩ else ⟨g.nextNumber⟩

/-- Adds a top block and moves the counter above its id, if an id is left there. -/
def place (g : Graph) (block : Block) : Graph :=
  let nextNumber :=
    if block.id.number < BlockId.last.number then max g.nextNumber (block.id.number + 1)
    else g.nextNumber
  { g with nodes := insertNode { block } g.nodes, nextNumber }.emit block.id block.kind .created

/-- Creates a top block with a state. -/
def addBlock (g : Graph) (kind : Kind) (extra : ExtraState) : BlockId × Graph :=
  let id := g.freshId
  (id, g.place (.create id kind extra))

/-- Adds a block under its own id. -/
def insertBlock (g : Graph) (block : Block) : Except GraphError Graph :=
  if g.contains block.id then .error (.duplicateBlock block.id)
  else if BlockId.last.number ≤ block.id.number then .error (.idOverflow block.id)
  else .ok (g.place block)

/-! Taking apart. -/

/-- Makes a block a top block. With `heal`, the statement below it takes over its link. -/
def detach (g : Graph) (id : BlockId) (heal : Bool) : Graph :=
  match g.parentLink? id with
  | none => g
  | some (parent, link) =>
    let loose := g.setParent id none
    match if heal then loose.next? id else none with
    | some follower => loose.link parent link follower
    | none => loose

/-- Makes a block a top block. Without `heal`, the statements below it come along. -/
def unplug (g : Graph) (id : BlockId) (heal : Bool) : Except GraphError Graph := do
  let block ← g.get id
  match g.parent? id with
  | none => return g
  | some parent => return (g.detach id heal).emit id block.kind (.moved (some parent) none)

/-- Takes a block out, and with it all links from and to it. -/
def removeNode (g : Graph) (id : BlockId) : Graph :=
  match g.block? id with
  | none => g
  | some block =>
    let orphan (node : Node) : Node :=
      if node.parent.any fun (parent, _) => parent = id then { node with parent := none } else node
    let kept := g.nodes.filter fun node => node.id ≠ id
    { g with nodes := kept.map orphan }.emit id block.kind .deleted

/-- Deletes a block with all that hangs from it. With `heal`, the statements below it move up into
its place; without, they are deleted too. Gives the deleted ids in walk order. -/
def deleteBlock (g : Graph) (id : BlockId) (heal : Bool) :
    Except GraphError (List BlockId × Graph) := do
  let _ ← g.get id
  let loose := g.detach id heal
  let doomed := loose.walk id
  return (doomed, doomed.foldl removeNode loose)

/-! Linking. -/

/-- Refuses a link that would close a cycle; gives the kind of the child. -/
def checkLink (g : Graph) (parent child : BlockId) : Except GraphError Kind := do
  let _ ← g.get parent
  let block ← g.get child
  if g.isAncestorOrSelf child parent then throw (.invalidLink (.cycle child parent))
  return block.kind

/-- Puts a chain of statements below another one. -/
def appendChain (g : Graph) (first displaced : BlockId) : Graph :=
  (g.detach displaced false).link (g.lastInStack first) .next displaced

/-- Puts a block, with the statements below it, below another block. The statements that were
there follow after the moved ones. -/
def connectNext (g : Graph) (previous id : BlockId) : Except GraphError Graph := do
  let kind ← g.checkLink previous id
  let above ← g.get previous
  if kind.isValue || above.kind.isValue then throw (.invalidLink .valueInChain)
  let source := g.parent? id
  let loose := g.detach id false
  let linked := match loose.next? previous with
    | some displaced => (loose.appendChain id displaced).link previous .next id
    | none => loose.link previous .next id
  return linked.emit id kind (.moved source (some previous))

/-- Plugs a block into a socket. A value that was there becomes a top block; statements that were
there follow after the plugged ones. -/
def connectSocket (g : Graph) (parent : BlockId) (socket : String) (child : BlockId) :
    Except GraphError Graph := do
  let kind ← g.checkLink parent child
  let owner ← g.get parent
  match owner.socket? socket with
  | none => throw (.unknownSocket parent socket)
  | some ⟨_, socketKind⟩ =>
    if socketKind = .statement && kind.isValue then
      throw (.invalidLink (.valueInStatement child socket))
    let source := g.parent? child
    let loose := g.detach child false
    let vacated ← match loose.plugged? parent socket, socketKind with
      | none, _ => pure loose
      | some occupant, .value => loose.unplug occupant false
      | some occupant, .statement => pure (loose.appendChain child occupant)
    return (vacated.link parent (.socket socket) child).emit child kind
      (.moved source (some parent))

/-- Hangs a top block from a free place and queues no event. Stored graphs are rebuilt so. -/
def attach (g : Graph) (parent : BlockId) (link : Link) (child : BlockId) :
    Except GraphError Graph := do
  let _ ← g.checkLink parent child
  if (g.parent? child).isSome then throw (.invalidLink (.hasParent child))
  if let .socket name := link then
    let owner ← g.get parent
    unless owner.hasSocket name do throw (.unknownSocket parent name)
  match g.child? parent link with
  | some occupant => throw (.invalidLink (.occupied parent occupant))
  | none => return g.link parent link child

/-! Content. -/

/-- Sets a field and gives its old value. Only a new value is an event. -/
def setField (g : Graph) (id : BlockId) (name value : String) :
    Except GraphError (Option String × Graph) := do
  let block ← g.get id
  let old := block.field? name
  let edited := g.updateBlock id fun block => { block with fields := block.fields.put name value }
  if old = some value then return (old, edited)
  return (old, edited.emit id block.kind (.fieldChanged name old value))

/-- Replaces the state of a block and derives its sockets anew. A socket that holds a block must
not disappear. -/
def setExtra (g : Graph) (id : BlockId) (extra : ExtraState) : Except GraphError Graph := do
  let block ← g.get id
  let updated := block.withExtra extra
  let lost := block.sockets.find? fun socket =>
    !updated.hasSocket socket.name && (g.plugged? id socket.name).isSome
  match lost with
  | some socket => throw (.invalidLink (.stillConnected id socket.name))
  | none => return (g.updateBlock id fun _ => updated).emit id block.kind .extraChanged

/-- Replaces the parameters of a declaration and the fields that show them. -/
def setSignature (g : Graph) (id : BlockId) (changes : List ParamChange) :
    Except GraphError Graph := do
  let block ← g.get id
  if block.extra.params?.isNone then throw (.wrongKind id block.kind .declaration)
  let extra := block.extra.withParams (changes.map (·.param))
  let edited := g.updateBlock id fun block => ({ block with extra } : Block).showParams
  return edited.emit id block.kind (.signatureChanged changes)

/-- Sets or clears a warning. Warnings are not part of the document, so no event is queued. -/
def setWarning (g : Graph) (id : BlockId) (warning : Option String) : Except GraphError Graph := do
  let _ ← g.get id
  return g.updateBlock id fun block => { block with warning }

end RobotBlocks.Graph
