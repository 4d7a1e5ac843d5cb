import RobotBlocks.Block.Id
import RobotBlocks.Block.Kind

/-! State of a block that is not a plain field: parameter lists of declarations, the call that a
reference stands for, the classes behind components and mechanisms. -/
namespace RobotBlocks

/-- A named parameter; its place in the list matters. -/
structure Parameter where
  name : String
  type : Option String := none
  deriving DecidableEq, Repr, Inhabited

inductive Visibility where
  /-- Callable inside the declaring module only. -/
  | within
  /-- Callable from the other modules of the workspace. -/
  | outside
  deriving DecidableEq, Repr, Inhabited

/-- Whose method is called, or whose event is handled. -/
inductive CallTarget where
  | selfModule
  | robot
  /-- A hardware component instance. -/
  | component (inst : String)
  /-- A mechanism instance of the robot, and the module that defines the mechanism. -/
  | mechanism (inst : String) (module : String)
  /-- Fires an event of the module itself. -/
  | fireEvent
  /-- A free function of a library module. -/
  | moduleFunction (module : String)
  deriving DecidableEq, Repr, Inhabited

/-- Local targets are declared in the graph that holds the reference. -/
def CallTarget.isLocal : CallTarget → Bool
  | .selfModule | .fireEvent => true
  | _ => false

structure CallState where
  target : CallTarget := .selfModule
  name : String := ""
  args : List Parameter := []
  returnType : Option String := none
  /-- The declaring block, in the graph that owns it. -/
  declaration : Option BlockId := none
  deriving DecidableEq, Repr, Inhabited

structure MethodState where
  params : List Parameter := []
  returnType : Option String := none
  visibility : Visibility := .within
  deriving DecidableEq, Repr, Inhabited

structure ComponentState where
  className : String := ""
  importModule : String := ""
  deriving DecidableEq, Repr, Inhabited

structure MechanismState where
  className : String := ""
  moduleName : String := ""
  deriving DecidableEq, Repr, Inhabited

inductive ExtraState where
  | none
  | event (params : List Parameter)
  | method (state : MethodState)
  | call (state : CallState)
  | component (state : ComponentState)
  | mechanism (state : MechanismState)
  /-- The name that the parameter had when its editor was opened. -/
  | paramItem (formerName : Option String)
  deriving DecidableEq, Repr, Inhabited

namespace ExtraState

/-- The state of a fresh block. -/
def default : Kind → ExtraState
  | .event => .event []
  | .methodDef => .method {}
  | .methodCall | .eventHandler => .call {}
  | .component => .component {}
  | .mechanism => .mechanism {}
  | .paramItem => .paramItem Option.none
  | .componentHolder | .paramContainer | .opModeDetails | .number | .text | .boolean
  | .variableGet => .none

/-- The parameters that an event or method definition declares. -/
def params? : ExtraState → Option (List Parameter)
  | .event params => some params
  | .method state => some state.params
  | _ => Option.none

/-- Replaces the declared parameters; other states declare none and stay. -/
def withParams (params : List Parameter) : ExtraState → ExtraState
  | .event _ => .event params
  | .method state => .method { state with params }
  | extra => extra

def call? : ExtraState → Option CallState
  | .call state => some state
  | _ => Option.none

end ExtraState
end RobotBlocks
