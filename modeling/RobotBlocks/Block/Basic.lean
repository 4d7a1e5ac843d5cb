import RobotBlocks.Block.State
import RobotBlocks.Labelled

/-! Blocks: ordered fields, sockets derived from kind and state, and a warning that is never
stored. -/
namespace RobotBlocks

namespace Field

def name : String := "NAME"
def type : String := "TYPE"
def enabled : String := "ENABLED"
def group : String := "GROUP"
def num : String := "NUM"
def text : String := "TEXT"
def bool : String := "BOOL"
def var : String := "VAR"
def port : String := "PORT"

/-- What the fields that show the parameters of a declaration start with. -/
def paramStem : String := "PARAM_"

/-- The field that shows the parameter at an index. -/
def param (index : Nat) : String := paramStem ++ toString index

def isParam (name : String) : Bool := paramStem.toList.isPrefixOf name.toList

end Field

inductive SocketKind where
  /-- Takes one block. -/
  | value
  /-- Takes a chain of statements. -/
  | statement
  deriving DecidableEq, Repr

structure Socket where
  name : String
  kind : SocketKind
  deriving DecidableEq, Repr

namespace Socket

def stack : String := "STACK"
def mechanisms : String := "MECHANISMS"
def components : String := "COMPONENTS"
def events : String := "EVENTS"

/-- The socket of the argument at an index. -/
def arg (index : Nat) : String := "ARG" ++ toString index

/-- The sockets that a kind and a state declare: a method call has one for each argument. -/
def declared (kind : Kind) (extra : ExtraState) : List Socket :=
  match kind with
  | .componentHolder => [⟨mechanisms, .statement⟩, ⟨components, .statement⟩, ⟨events, .statement⟩]
  | .methodDef | .eventHandler | .paramContainer => [⟨stack, .statement⟩]
  | .methodCall =>
    (List.range (extra.call?.elim 0 fun call => call.args.length)).map fun i => ⟨arg i, .value⟩
  | .component | .mechanism | .event | .paramItem | .opModeDetails | .number | .text | .boolean
  | .variableGet => []

end Socket

structure Block where
  id : BlockId
  kind : Kind
  fields : Labelled String
  sockets : List Socket
  extra : ExtraState
  warning : Option String := none
  deriving DecidableEq, Repr

namespace Block

/-- The fields of a fresh block. -/
def defaultFields : Kind → Labelled String
  | .event | .methodDef | .methodCall | .eventHandler | .component | .mechanism | .paramItem =>
    [(Field.name, "")]
  | .opModeDetails =>
    [(Field.type, "Teleop"), (Field.enabled, "TRUE"), (Field.name, ""), (Field.group, "")]
  | .number => [(Field.num, "0")]
  | .text => [(Field.text, "")]
  | .boolean => [(Field.bool, "TRUE")]
  | .variableGet => [(Field.var, "")]
  | .componentHolder | .paramContainer => []

/-- The fields that show a parameter list, the first one at the index. -/
def paramFields : Nat → List Parameter → Labelled String
  | _, [] => []
  | index, param :: params => (Field.param index, param.name) :: paramFields (index + 1) params

/-- Shows the declared parameters, after the other fields and in place of those shown before. -/
def showParams (block : Block) : Block :=
  match block.extra.params? with
  | none => block
  | some params =>
    { block with
      fields := block.fields.filter (fun (name, _) => !Field.isParam name) ++ paramFields 0 params }

/-- Gives the block a state and the sockets and parameter fields that follow from it. -/
def withExtra (block : Block) (extra : ExtraState) : Block :=
  showParams { block with extra, sockets := Socket.declared block.kind extra }

/-- A fresh block with a given state. -/
def create (id : BlockId) (kind : Kind) (extra : ExtraState) : Block :=
  withExtra { id, kind, fields := defaultFields kind, sockets := [], extra } extra

def field? (block : Block) (name : String) : Option String := block.fields.get? name

/-- The value of a field; a missing field reads as the empty text. -/
def fieldD (block : Block) (name : String) : String := (block.field? name).getD ""

def name (block : Block) : String := block.fieldD Field.name

def socket? (block : Block) (name : String) : Option Socket :=
  block.sockets.find? fun socket => socket.name = name

def hasSocket (block : Block) (name : String) : Bool := (block.socket? name).isSome

end Block
end RobotBlocks
