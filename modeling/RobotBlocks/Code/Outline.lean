import RobotBlocks.Module.Type
import RobotBlocks.Code.Diagnostic
import RobotBlocks.Code.Syntax
import RobotBlocks.Text.Unused

/-! The outline of a class: what is known of a module before its statements are read. -/
namespace RobotBlocks.Code

/-- A method that handles an event. -/
structure Handler where
  block : BlockId
  sender : CallTarget
  event : String
  params : List Parameter
  methodName : String
  deriving Repr

namespace Handler

/-- The object that sends the event. -/
def receiver (handler : Handler) : Receiver :=
  match handler.sender with
  | .robot => .attribute "robot"
  | .component inst => .attribute (Text.identifier inst)
  | .mechanism inst _ => .attribute (Text.identifier inst)
  | .selfModule | .fireEvent | .moduleFunction _ => .self

/-- The method name before it is made unique; library functions send no events. -/
def baseName? (call : CallState) : Option String :=
  let name (stem : String) :=
    "_handle_" ++ Text.identifier stem ++ "_" ++ Text.identifier call.name
  match call.target with
  | .robot => some (name "robot")
  | .component inst => some (name inst)
  | .mechanism inst _ => some (name inst)
  | .selfModule | .fireEvent => some ("_handle_" ++ Text.identifier call.name)
  | .moduleFunction _ => none

/-- The base name itself, or the first of `base_2`, `base_3`, … that no other handler has. -/
def uniqueName (base : String) (used : List String) : String :=
  if used.contains base then
    Text.firstUnused (fun n => base ++ "_" ++ toString n) used used.length 2
  else base

/-- The handlers of top blocks, in their order; a handler without a sender is reported. -/
def collect : List Block → List String → List Handler × List Diagnostic
  | [], _ => ([], [])
  | block :: blocks, used =>
    match block.kind, block.extra with
    | .eventHandler, .call call =>
      match baseName? call with
      | none =>
        let (handlers, diagnostics) := collect blocks used
        (handlers, ⟨block.id, .noSender⟩ :: diagnostics)
      | some base =>
        let name := uniqueName base used
        let (handlers, diagnostics) := collect blocks (name :: used)
        (⟨block.id, call.target, call.name, call.args, name⟩ :: handlers, diagnostics)
    | _, _ => collect blocks used

end Handler

structure Outline where
  type : ModuleType
  className : String
  opMode : Option OpModeDetails
  declarations : Declarations
  /-- The method definitions among the top blocks. -/
  methods : List BlockId
  handlers : List Handler
  diagnostics : List Diagnostic
  deriving Repr

namespace Outline

/-- The robot of a workspace has one class name, all other classes are named after their module.
A module of the unknown type has no class. -/
def className? (type : ModuleType) (name : String) : Option String :=
  match type with
  | .robot => some "Robot"
  | .mechanism | .opMode => some (Text.className name)
  | .unknown => none

def collect? (type : ModuleType) (name : String) (g : Graph) : Option Outline :=
  (className? type name).map fun className =>
    let tops := g.topBlocks.filterMap g.block?
    let (handlers, diagnostics) := Handler.collect tops []
    { type, className, handlers, diagnostics
      opMode := if type = .opMode then OpModeDetails.ofGraph? g else none
      declarations := .collect g
      methods := (tops.filter fun block => block.kind = .methodDef).map (·.id) }

end Outline
end RobotBlocks.Code
