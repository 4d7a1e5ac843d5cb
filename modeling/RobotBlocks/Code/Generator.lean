import RobotBlocks.Decimal
import RobotBlocks.Code.Imports
import RobotBlocks.Code.Outline

/-! Generating the class of a module. References that do not fit their declarations never stop the
generator: it writes the best code there is and notes what it papered over. The text depends on
the graph, the scope and the options alone. -/
namespace RobotBlocks.Code

structure Options where
  /-- Spaces for each level of indentation. -/
  indent : Nat := 4
  /-- Whether the first line says that the file is generated. -/
  header : Bool := true
  deriving DecidableEq, Repr

namespace Options

def maxIndent : Nat := 8

def isValid (options : Options) : Bool := 0 < options.indent && options.indent ≤ maxIndent

end Options

inductive GenerateError where
  | graph (error : GraphError)
  | unsupportedType (type : ModuleType)
  | invalidIndent (indent : Nat)
  deriving DecidableEq, Repr

def GenerateError.message : GenerateError → String
  | .graph error => "invalid graph: " ++ error.message
  | .unsupportedType type =>
    "cannot generate python for a module of type '" ++ type.name ++ "'"
  | .invalidIndent indent =>
    "invalid options: indent must be between 1 and " ++ toString Options.maxIndent ++ ", got " ++
      toString indent

/-- What comes up while a piece of code is written. -/
inductive Note where
  | needs (what : Use)
  | found (problem : Diagnostic)
  deriving Repr

def Note.complain (block : BlockId) (complaint : Complaint) : Note := .found ⟨block, complaint⟩

def Note.use? : Note → Option Use
  | .needs what => some what
  | .found _ => none

def Note.diagnostic? : Note → Option Diagnostic
  | .needs _ => none
  | .found problem => some problem

/-- Code together with the notes on it, in the order in which they came up. -/
abbrev Noted (α : Type) := α × List Note

/-! Expressions. -/

/-- The text of a number block, if it is a finite number. -/
def numeral? (text : String) : Option String :=
  let trimmed := Text.trim text
  if (Decimal.ofString? trimmed).any (·.isFinite) then some trimmed else none

/-- What a call is known to be: its name, its arity and what is wrong with it. -/
def resolveCall (own : Declarations) (scope : Scope) (block : BlockId) (call : CallState) :
    String × Nat × List Note :=
  match scope.lookup own .methodCall call with
  | .found signature =>
    let passed := call.args.length
    let taken := signature.args.length
    (signature.name, taken,
      if taken = passed then [] else [.complain block (.wrongArity signature.name passed taken)])
  | .missing => (call.name, call.args.length, [.complain block (.missing call.name)])
  | .unresolvable => (call.name, call.args.length, [])

/-- The call of a function on what its target names, and the imports that it needs. -/
def callExpr (target : CallTarget) (name : String) (args : List Expr) : Noted Expr :=
  let function := Text.identifier name
  match target with
  | .selfModule => (.call .self function args, [])
  | .robot => (.call (.attribute "robot") function args, [])
  | .component inst => (.call (.attribute (Text.identifier inst)) function args, [])
  | .mechanism inst _ => (.call (.attribute (Text.identifier inst)) function args, [])
  | .fireEvent => (.fire name args, [])
  | .moduleFunction module => (.call (.module module) function args, [.needs (.module module)])

/-- The expression of a block, with at most so many levels of plugged blocks; no block gives
`None`. -/
def exprWithin (g : Graph) (own : Declarations) (scope : Scope) :
    Nat → Option BlockId → Except GraphError (Noted Expr)
  | 0, _ | _, none => return (.none, [])
  | depth + 1, some id => do
    let block ← g.get id
    match block.kind with
    | .number =>
      let text := block.fieldD Field.num
      match numeral? text with
      | some numeral => return (.number numeral, [])
      | none => return (.number "0", [.complain id (.notNumber (Text.trim text))])
    | .text => return (.text (block.fieldD Field.text), [])
    | .boolean => return (.bool (block.field? Field.bool = some "TRUE"), [])
    | .variableGet => return (.variable (Text.identifier (block.fieldD Field.var)), [])
    | .methodCall =>
      match block.extra.call? with
      | none => return (.none, [])
      | some call =>
        let (name, arity, notes) := resolveCall own scope id call
        let args ← (List.range arity).mapM fun i =>
          exprWithin g own scope depth <|
            if i < call.args.length then g.plugged? id (Socket.arg i) else none
        let (expr, uses) := callExpr call.target name (args.map (·.1))
        return (expr, notes ++ args.flatMap (·.2) ++ uses)
    | kind => return (.none, [.complain id (.notValue kind)])

/-- The expression of a block. -/
def exprOf (g : Graph) (own : Declarations) (scope : Scope) (id : BlockId) :
    Except GraphError (Noted Expr) :=
  exprWithin g own scope (g.size + 1) (some id)

/-! Methods. -/

/-- The statements below a block that can be written; the others are noted. -/
def statements (g : Graph) (own : Declarations) (scope : Scope) :
    List BlockId → Except GraphError (Noted (List String))
  | [] => return ([], [])
  | id :: rest => do
    let block ← g.get id
    let (line?, notes) ←
      if block.kind = .methodCall || block.kind.isValue then do
        let (expr, notes) ← exprOf g own scope id
        pure (some expr.code, notes)
      else pure (none, [.complain id (.notStatement block.kind)])
    let (lines, more) ← statements g own scope rest
    return (line?.toList ++ lines, notes ++ more)

/-- The body of a method definition or handler. -/
def bodyOf (g : Graph) (own : Declarations) (scope : Scope) (id : BlockId) :
    Except GraphError (Noted (List String)) :=
  statements g own scope (g.statementStack id Socket.stack)

def paramNames (params : List Parameter) : List String :=
  params.map fun param => Text.identifier param.name

def methodOf (g : Graph) (own : Declarations) (scope : Scope) (id : BlockId) :
    Except GraphError (Noted Method) := do
  let block ← g.get id
  let (body, notes) ← bodyOf g own scope id
  let params := paramNames (block.extra.params?.getD [])
  return ({ name := Text.identifier block.name, params, body }, notes)

def handlerMethod (g : Graph) (own : Declarations) (scope : Scope) (handler : Handler) :
    Except GraphError (Noted Method) := do
  let (body, notes) ← bodyOf g own scope handler.block
  return ({ name := handler.methodName, params := paramNames handler.params, body }, notes)

/-- The constructor: an opmode gets the robot, the other classes build their hardware. -/
def initMethod (outline : Outline) : Method :=
  let register := if outline.handlers.isEmpty then [] else ["self.register_event_handlers()"]
  if outline.type = .opMode then
    { name := "__init__", params := ["robot"]
      body := ["super().__init__(robot)", "self.robot = robot"] ++ register }
  else
    { name := "__init__"
      body := ["super().__init__()", "self.define_hardware()"] ++ register }

/-- A port of digits alone is a number, every other port a text. -/
def portCode (port : String) : String :=
  if !port.isEmpty && port.toList.all Char.isDigit then port else Text.quoted port

/-- The line that builds a component, unless it has no class. -/
def hardwareLine (component : ComponentDecl) : Noted (Option String) :=
  if (Text.trim component.className).isEmpty then
    (none, [.complain component.block (.noClass component.name)])
  else
    (some ("self." ++ Text.identifier component.name ++ " = " ++ component.className ++ "("
        ++ component.port.elim "" portCode ++ ")"),
      if component.importModule.isEmpty then []
      else [.needs (.symbol component.importModule component.className)])

def hardwareMethod (own : Declarations) : Noted Method :=
  let lines := own.components.map hardwareLine
  ({ name := "define_hardware", body := lines.filterMap (·.1) }, lines.flatMap (·.2))

/-- Registers every handler with its sender. -/
def registerMethod (handlers : List Handler) : Method where
  name := "register_event_handlers"
  body := handlers.map fun handler =>
    handler.receiver.code ++ ".register_event_handler(" ++
      commaSeparated [Text.quoted handler.event, "self." ++ handler.methodName] ++ ")"

/-! The class. -/

def placeholders : String := "wpilib_placeholders"
def baseClasses : String := "blocks_base_classes"

/-- The base class of a module type and the module that has it. -/
def baseOf : ModuleType → String × String
  | .robot => (placeholders, "OpModeRobot")
  | .mechanism => (baseClasses, "Mechanism")
  | .opMode | .unknown => (placeholders, "PeriodicOpMode")

/-- The decorators of an opmode with the symbols that they use. A disabled opmode has none for its
kind, and blank texts have none at all. -/
def decorators (details : OpModeDetails) : List (String × String) :=
  let named (symbol text : String) : List (String × String) :=
    let trimmed := Text.trim text
    if trimmed.isEmpty then [] else [(symbol, "(" ++ Text.quoted trimmed ++ ")")]
  (if details.enabled then [(details.kind.title, "")] else [])
    ++ named "Name" details.name ++ named "Group" details.group

def classOf (g : Graph) (scope : Scope) (outline : Outline) :
    Except GraphError (Noted Class) := do
  let own := outline.declarations
  let (baseModule, base) := baseOf outline.type
  let marks := outline.opMode.elim [] decorators
  let hardware := if outline.type.exports then [hardwareMethod own] else []
  let register := if outline.handlers.isEmpty then [] else [registerMethod outline.handlers]
  let methods ← outline.methods.mapM (methodOf g own scope)
  let handlers ← outline.handlers.mapM (handlerMethod g own scope)
  let noted := hardware ++ methods ++ handlers
  let uses := Note.needs (.symbol baseModule base)
    :: marks.map fun (symbol, _) => .needs (.symbol baseClasses symbol)
  return ({ decorators := marks.map fun (symbol, args) => "@" ++ symbol ++ args
            name := outline.className
            base := base
            methods := initMethod outline :: hardware.map (·.1) ++ register
              ++ methods.map (·.1) ++ handlers.map (·.1) },
    uses ++ noted.flatMap (·.2))

def headerLine : String := "# Generated by blockbot. Do not edit."

/-- The whole file: the imports stand above the class that needs them. -/
def fileText (options : Options) (imports : Imports) (c : Class) : String :=
  let header := if options.header then [headerLine, ""] else []
  let unit := String.ofList (List.replicate options.indent ' ')
  "\n".intercalate (header ++ imports.lines ++ ["", ""] ++ c.lines unit) ++ "\n"

structure Generated where
  code : String
  className : String
  /-- All declarations of the module, those for its own use included. -/
  declarations : Declarations
  opMode : Option OpModeDetails
  diagnostics : List Diagnostic
  deriving Repr

def generate (type : ModuleType) (name : String) (g : Graph) (scope : Scope) (options : Options) :
    Except GenerateError Generated := do
  if !options.isValid then throw (.invalidIndent options.indent)
  let some outline := Outline.collect? type name g | throw (.unsupportedType type)
  let (c, notes) ← (classOf g scope outline).mapError .graph
  return { code := fileText options (.ofUses (notes.filterMap Note.use?)) c
           className := outline.className
           declarations := outline.declarations
           opMode := outline.opMode
           diagnostics := outline.diagnostics ++ notes.filterMap Note.diagnostic? }

end RobotBlocks.Code
