/-! The closed set of block kinds and the roles they play. -/
namespace RobotBlocks

inductive Kind where
  /-- Holds the mechanisms, components and events sections of a robot or mechanism. -/
  | componentHolder
  | component
  /-- A mechanism instance inside a robot. -/
  | mechanism
  | event
  | eventHandler
  | methodDef
  | methodCall
  /-- The root of a parameter editor. -/
  | paramContainer
  | paramItem
  | opModeDetails
  | number
  | text
  | boolean
  | variableGet
  deriving DecidableEq, Repr, Inhabited

namespace Kind

def all : List Kind :=
  [.componentHolder, .component, .mechanism, .event, .eventHandler, .methodDef, .methodCall,
   .paramContainer, .paramItem, .opModeDetails, .number, .text, .boolean, .variableGet]

/-- The spelling in stored documents. -/
def tag : Kind → String
  | .componentHolder => "component_holder"
  | .component => "component"
  | .mechanism => "mechanism"
  | .event => "event"
  | .eventHandler => "event_handler"
  | .methodDef => "method_def"
  | .methodCall => "method_call"
  | .paramContainer => "param_container"
  | .paramItem => "param_item"
  | .opModeDetails => "op_mode_details"
  | .number => "number"
  | .text => "text"
  | .boolean => "boolean"
  | .variableGet => "variable_get"

def ofTag? (tag : String) : Option Kind := all.find? fun kind => kind.tag = tag

/-- The spelling in messages. -/
def title : Kind → String
  | .componentHolder => "ComponentHolder"
  | .component => "Component"
  | .mechanism => "Mechanism"
  | .event => "Event"
  | .eventHandler => "EventHandler"
  | .methodDef => "MethodDef"
  | .methodCall => "MethodCall"
  | .paramContainer => "ParamContainer"
  | .paramItem => "ParamItem"
  | .opModeDetails => "OpModeDetails"
  | .number => "Number"
  | .text => "Text"
  | .boolean => "Boolean"
  | .variableGet => "VariableGet"

/-- Declarations give a name and parameters that other blocks refer to. -/
def isDeclaration : Kind → Bool
  | .event | .methodDef => true
  | _ => false

/-- References name a declaration by its id. -/
def isReference : Kind → Bool
  | .methodCall | .eventHandler => true
  | _ => false

/-- Values sit in value sockets and never in a chain of statements. -/
def isValue : Kind → Bool
  | .number | .text | .boolean | .variableGet => true
  | _ => false

end Kind
end RobotBlocks
