import RobotBlocks.CommandLine.Manual
import RobotBlocks.Config

/-! The command that arguments ask for. Options may stand in front of the name of the command or
behind it. Arguments are read from the left, and the first that cannot be right ends the reading,
so that help is given only if nothing in front of its request is wrong. -/
namespace RobotBlocks.CommandLine

inductive Command where
  | list
  | newProject (name : String)
  | newModule (workspace name type : String)
  | generate (path : String)
  | check (path : String)
  | moveModule (path newName : String) (copy : Bool)
  | deleteModule (path : String)
  | moveWorkspace (source target : String) (copy : Bool)
  | deleteWorkspace (name : String)
  deriving DecidableEq, Repr

/-- Why arguments give no command. -/
inductive Refusal where
  | usage
  /-- Help was asked for. -/
  | help (page : Page)
  deriving DecidableEq, Repr

/-- What an option sets. -/
inductive Setting where
  | database
  | indent
  | type
  deriving DecidableEq, Repr

/-- The setting of an option. Only some commands have a type. -/
def Setting.ofOption? (withType : Bool) : String → Option Setting
  | "--db" => some .database
  | "--indent" => some .indent
  | "--type" | "-t" => if withType then some .type else none
  | _ => none

/-- What was read of the arguments: settings, each at most once, and operands. -/
structure Given where
  database : Option String := none
  indent : Option Nat := none
  type : Option String := none
  operands : List String := []
  deriving DecidableEq, Repr

/-- The value of a setting, if it is not given yet. -/
def setOnce {α : Type} (old : Option α) (value : Option α) : Except Refusal (Option α) :=
  match old, value with
  | none, some value => .ok (some value)
  | _, _ => .error .usage

def Given.set (given : Given) (setting : Setting) (value : String) : Except Refusal Given := do
  match setting with
  | .database => return { given with database := ← setOnce given.database (some value) }
  | .indent => return { given with indent := ← setOnce given.indent (Config.parseCount? value) }
  | .type => return { given with type := ← setOnce given.type (some value) }

/-- An argument that can only be an option. -/
def isOption (argument : String) : Bool :=
  argument.toList.head? = some '-' && 2 ≤ argument.length

/-- An option that asks for help. What follows the letter of the short one does not matter. -/
def asksHelp (argument : String) : Bool :=
  argument = "--help" || argument.toList.take 2 = ['-', 'h']

/-- Splits an option from the value that is attached to it: `--name=value`, `-t=value` and
`-tvalue`. -/
def splitOption (argument : String) : String × Option String :=
  match argument.toList with
  | '-' :: '-' :: rest =>
    match rest.span (· ≠ '=') with
    | (_, []) => (argument, none)
    | (name, _ :: value) => (String.ofList ('-' :: '-' :: name), some (String.ofList value))
  | '-' :: letter :: '=' :: value => (String.ofList ['-', letter], some (String.ofList value))
  | ['-', letter] => (String.ofList ['-', letter], none)
  | '-' :: letter :: value => (String.ofList ['-', letter], some (String.ofList value))
  | _ => (argument, none)

/-- What was read so far: what stands in front of the name of the command, the command, and what
follows the name. -/
structure Reading where
  front : Given := {}
  /-- The last setting in front of the name, unless its value is attached. It is recorded when the
  next option in front of the name comes, or else after everything. -/
  held : Option (Setting × String) := none
  form : Option Form := none
  given : Given := {}
  deriving DecidableEq, Repr

namespace Reading

def page (reading : Reading) : Page := (reading.form.map Form.page).getD programPage

/-- Records the setting that is held. -/
def settle (reading : Reading) : Except Refusal Reading :=
  match reading.held with
  | none => .ok reading
  | some (setting, value) => do
    return { reading with front := ← reading.front.set setting value, held := none }

/-- Makes room for an option: in front of the name the held setting is recorded first. -/
def advance (reading : Reading) : Except Refusal Reading :=
  match reading.form with
  | none => reading.settle
  | some _ => .ok reading

/-- Records a setting with an attached value. -/
def attach (reading : Reading) (setting : Setting) (value : String) : Except Refusal Reading :=
  match reading.form with
  | none => do return { reading with front := ← reading.front.set setting value }
  | some _ => do return { reading with given := ← reading.given.set setting value }

/-- Takes a setting with a value that is an argument of its own. -/
def take (reading : Reading) (setting : Setting) (value : String) : Except Refusal Reading :=
  match reading.form with
  | none => .ok { reading with held := some (setting, value) }
  | some _ => reading.attach setting value

/-- The first operand is the name of the command, which says how many more there can be. -/
def addOperand (reading : Reading) (operand : String) : Except Refusal Reading :=
  match reading.form with
  | none =>
    match Form.ofName? operand with
    | some form => .ok { reading with form := some form }
    | none => .error .usage
  | some form =>
    if reading.given.operands.length < form.operands.length then
      .ok { reading with
        given := { reading.given with operands := reading.given.operands ++ [operand] } }
    else .error .usage

/-- The answer to a request for help on a command. -/
def helpOn : List String → Refusal
  | [] => .help programPage
  | ["help"] => .help helpPage
  | [name] => ((Form.ofName? name).map fun form => Refusal.help form.page).getD .usage
  | _ => .usage

/-- Reads options and operands. After `--` everything is an operand, and none of them names the
command. -/
def readAll : List String → Reading → Except Refusal Reading
  | [], reading => reading.settle
  | argument :: rest, reading =>
    if argument = "--" then
      if reading.form.isNone then .error .usage
      else do (← rest.foldlM addOperand reading).settle
    else if asksHelp argument then do
      throw (.help (← reading.advance).page)
    else if isOption argument then do
      let reading ← reading.advance
      let (option, attached) := splitOption argument
      let some setting := Setting.ofOption? (reading.form.any (·.withType)) option
        | throw .usage
      match attached, rest with
      | some value, rest => readAll rest (← reading.attach setting value)
      | none, value :: rest =>
        if isOption value then throw .usage else readAll rest (← reading.take setting value)
      | none, [] => throw .usage
    else if argument = "help" && reading.form.isNone then .error (helpOn rest)
    else do readAll rest (← reading.addOperand argument)

end Reading

/-- The command of a form and what is given to it. -/
def Command.ofForm? (form : Form) (given : Given) : Option Command :=
  match form.name, given.operands with
  | "list", [] => some .list
  | "new-project", [name] => some (.newProject name)
  | "new-module", [workspace, name] =>
    some (.newModule workspace name (given.type.getD ModuleType.opMode.name))
  | "generate", [path] => some (.generate path)
  | "check", [path] => some (.check path)
  | "rename-module", [path, newName] => some (.moveModule path newName false)
  | "copy-module", [path, newName] => some (.moveModule path newName true)
  | "delete-module", [path] => some (.deleteModule path)
  | "copy-workspace", [source, target] => some (.moveWorkspace source target true)
  | "rename-workspace", [source, target] => some (.moveWorkspace source target false)
  | "delete-workspace", [name] => some (.deleteWorkspace name)
  | _, _ => none

/-- A command and the settings that the arguments override. -/
structure Invocation where
  command : Command
  database : Option String
  indent : Option Nat
  deriving DecidableEq, Repr

/-- The invocation that arguments ask for. An option after the name of the command outdoes one in
front of it. -/
def parse (arguments : List String) : Except Refusal Invocation := do
  let reading ← Reading.readAll arguments {}
  let some command := reading.form.bind fun form => Command.ofForm? form reading.given
    | throw .usage
  return { command, database := reading.given.database.or reading.front.database
           indent := reading.given.indent.or reading.front.indent }

/-- The settings of an invocation, over those of the environment. -/
def Invocation.config (invocation : Invocation) (environment : Config) : Config where
  databaseName := invocation.database.getD environment.databaseName
  indent := invocation.indent.getD environment.indent

end RobotBlocks.CommandLine
