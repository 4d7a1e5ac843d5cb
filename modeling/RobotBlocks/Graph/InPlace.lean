import RobotBlocks.Graph.Edit

/-! Edits of a graph in place. Each step may be refused, and what earlier steps have changed stays
changed then: a link is taken away before the block is looked up again that it is hung from. -/
namespace RobotBlocks.Graph

/-- Steps on a graph; a refusal keeps the graph as the steps before it have left it. -/
abbrev InPlace (α : Type) : Type := ExceptT GraphError (StateM Graph) α

namespace InPlace

variable {α : Type}

/-- What the steps answer, and the graph that they leave. -/
def perform (steps : InPlace α) (g : Graph) : Except GraphError α × Graph := steps.run.run g

/-- A question to the graph that it may refuse. -/
def ask (question : Graph → Except GraphError α) : InPlace α := fun g => (question g, g)

def look (question : Graph → α) : InPlace α := ask fun g => .ok (question g)

def change (f : Graph → Graph) : InPlace Unit := fun g => (.ok (), f g)

def refuse (fault : GraphError) : InPlace α := ask fun _ => .error fault

/-- The block, once more. -/
def find (id : BlockId) : InPlace Block := ask fun g => g.get id

def announce (id : BlockId) (kind : Kind) (payload : Payload) : InPlace Unit :=
  change fun g => g.emit id kind payload

/-- Hangs a child from a parent, if both are still there. -/
def hang (parent : BlockId) (hook : Link) (child : BlockId) : InPlace Unit := do
  let _ ← find parent
  let _ ← find child
  change fun g => g.link parent hook child

def addBlock (kind : Kind) (extra : ExtraState) : InPlace BlockId := do
  let id ← look fun g => g.freshId
  change fun g => g.place (.create id kind extra)
  return id

def insertBlock (block : Block) : InPlace Unit := do
  if ← look fun g => g.contains block.id then refuse (.duplicateBlock block.id)
  else if BlockId.last.number ≤ block.id.number then refuse (.idOverflow block.id)
  else change fun g => g.place block

/-- Makes a block a top block and gives its former parent. With `heal`, the statement below it comes
loose as well before it takes over the link. -/
def detach (id : BlockId) (heal : Bool) : InPlace (Option BlockId) := do
  let _ ← find id
  match ← look fun g => g.parentLink? id with
  | none => return none
  | some (parent, hook) =>
    change fun g => g.setParent id none
    match ← look fun g => if heal then g.next? id else none with
    | some follower =>
      change fun g => g.setParent follower none
      change fun g => g.link parent hook follower
    | none => pure ()
    return some parent

def unplug (id : BlockId) (heal : Bool) : InPlace Unit := do
  let block ← find id
  match ← detach id heal with
  | some parent => announce id block.kind (.moved (some parent) none)
  | none => pure ()

def deleteBlock (id : BlockId) (heal : Bool) : InPlace (List BlockId) := do
  let _ ← find id
  let _ ← detach id heal
  let doomed ← look fun g => g.walk id
  doomed.forM fun gone => change fun g => g.removeNode gone
  return doomed

/-- Puts a chain of statements, already loose, below another one. -/
def append (first displaced : BlockId) : InPlace Unit := do
  let last ← look fun g => g.lastInStack first
  hang last .next displaced

/-- The block is hung in its new place before the tail is looked for that gets the displaced chain. -/
def connectNext (previous id : BlockId) : InPlace Unit := do
  let kind ← ask fun g => g.checkLink previous id
  let above ← find previous
  if kind.isValue || above.kind.isValue then refuse (.invalidLink .valueInChain)
  else
    let source ← detach id false
    match ← look fun g => g.next? previous with
    | some displaced =>
      let _ ← detach displaced false
      hang previous .next id
      append id displaced
    | none => hang previous .next id
    announce id kind (.moved source (some previous))

/-- What sits in a socket makes room for a block. -/
def vacate (parent : BlockId) (socket : String) (kind : SocketKind) (child : BlockId) : InPlace Unit := do
  match ← look fun g => g.plugged? parent socket, kind with
  | none, _ => pure ()
  | some occupant, .value => unplug occupant false
  | some occupant, .statement =>
    let _ ← detach occupant false
    append child occupant

def connectSocket (parent : BlockId) (socket : String) (child : BlockId) : InPlace Unit := do
  let kind ← ask fun g => g.checkLink parent child
  let owner ← find parent
  match owner.socket? socket with
  | none => refuse (.unknownSocket parent socket)
  | some ⟨_, socketKind⟩ =>
    if socketKind = .statement && kind.isValue then refuse (.invalidLink (.valueInStatement child socket))
    else
      let source ← detach child false
      vacate parent socket socketKind child
      hang parent (.socket socket) child
      announce child kind (.moved source (some parent))

def setField (id : BlockId) (name value : String) : InPlace (Option String) := do
  let block ← find id
  let old := block.field? name
  change fun g => g.updateBlock id fun block => { block with fields := block.fields.put name value }
  if old = some value then return old
  else
    announce id block.kind (.fieldChanged name old value)
    return old

def setExtra (id : BlockId) (extra : ExtraState) : InPlace Unit := do
  let block ← find id
  let updated := block.withExtra extra
  let lost ← look fun g => block.sockets.find? fun socket =>
    !updated.hasSocket socket.name && (g.plugged? id socket.name).isSome
  match lost with
  | some socket => refuse (.invalidLink (.stillConnected id socket.name))
  | none =>
    let _ ← find id
    change fun g => g.updateBlock id fun _ => updated
    announce id block.kind .extraChanged

def setSignature (id : BlockId) (changes : List ParamChange) : InPlace Unit := do
  let block ← find id
  if block.extra.params?.isNone then refuse (.wrongKind id block.kind .declaration)
  else
    let extra := block.extra.withParams (changes.map (·.param))
    change fun g => g.updateBlock id fun block => ({ block with extra } : Block).showParams
    announce id block.kind (.signatureChanged changes)

def setWarning (id : BlockId) (warning : Option String) : InPlace Unit := do
  let _ ← find id
  change fun g => g.updateBlock id fun block => { block with warning }

end InPlace
end RobotBlocks.Graph
