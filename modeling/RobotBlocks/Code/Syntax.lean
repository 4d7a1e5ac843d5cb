import RobotBlocks.Text.Identifier
import RobotBlocks.Text.Quoted

/-! The Python that blocks stand for: expressions over the class itself, and one class whose
methods follow one another. -/
namespace RobotBlocks.Code

/-- The object on which a function is called. -/
inductive Receiver where
  | self
  /-- An attribute of the class, by its identifier. -/
  | attribute (name : String)
  /-- A library module, by its name. -/
  | module (name : String)
  deriving DecidableEq, Repr

def Receiver.code : Receiver → String
  | .self => "self"
  | .attribute name => "self." ++ name
  | .module name => name

inductive Expr where
  | none
  | number (numeral : String)
  | text (value : String)
  | bool (value : Bool)
  | variable (identifier : String)
  | call (receiver : Receiver) (function : String) (args : List Expr)
  /-- Fires an event of the class by the name of the event. -/
  | fire (event : String) (args : List Expr)
  deriving Repr, Inhabited

def commaSeparated (items : List String) : String := ", ".intercalate items

namespace Expr

mutual

def code : Expr → String
  | .none => "None"
  | .number numeral => numeral
  | .text value => Text.quoted value
  | .bool true => "True"
  | .bool false => "False"
  | .variable identifier => identifier
  | .call receiver function args =>
    receiver.code ++ "." ++ function ++ "(" ++ commaSeparated (codes args) ++ ")"
  | .fire event args =>
    "self.fire_event(" ++ commaSeparated (Text.quoted event :: codes args) ++ ")"

def codes : List Expr → List String
  | [] => []
  | arg :: args => code arg :: codes args

end

end Expr

/-- A method of the class. A method without statements has the body `pass`. -/
structure Method where
  name : String
  /-- The parameters after `self`. -/
  params : List String := []
  body : List String
  deriving Repr

namespace Method

def header (method : Method) : String :=
  "def " ++ method.name ++ "(" ++ commaSeparated ("self" :: method.params) ++ "):"

/-- The lines of a method inside its class. -/
def lines (unit : String) (method : Method) : List String :=
  let body := if method.body.isEmpty then ["pass"] else method.body
  (unit ++ method.header) :: body.map fun statement => unit ++ unit ++ statement

end Method

structure Class where
  decorators : List String := []
  name : String
  base : String
  methods : List Method
  deriving Repr

namespace Class

/-- The lines of a class: an empty line parts a method from the one before it. -/
def lines (unit : String) (c : Class) : List String :=
  c.decorators ++ ["class " ++ c.name ++ "(" ++ c.base ++ "):"]
    ++ [""].intercalate (c.methods.map fun method => method.lines unit)

end Class
end RobotBlocks.Code
