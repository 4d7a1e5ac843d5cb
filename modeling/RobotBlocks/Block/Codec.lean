import RobotBlocks.Block.Basic
import RobotBlocks.Json.Decoder

/-! Stored form of ids, kinds, parameters and extra states. The extra state is tagged by its
member `state`, a call in it once more by its member `target`. -/
namespace RobotBlocks

open Json Decoder

namespace BlockId

def encode (id : BlockId) : Value := .ofNat id.number

def decode : Decoder BlockId := fun level value => (natBelow (Nat.pow 2 32) level value).map BlockId.mk

end BlockId

namespace Kind

def encode (kind : Kind) : Value := .ofString kind.tag
def decode : Decoder Kind := Decoder.name ofTag?

end Kind

namespace Parameter

def encode (param : Parameter) : Value :=
  .ofMembers [("name", some (.ofString param.name)), ("type", param.type.map .ofString)]

def decode : Decoder Parameter :=
  record ["name", "type"] fun level slots => match slots with
    | [name, type] => do
      return { name := ← required string level name
               type := ← defaulted (optional string) none level type }
    | _ => none

def encodeList (params : List Parameter) : Value := .array (params.map encode)
def decodeList : Decoder (List Parameter) := list decode

end Parameter

namespace Visibility

def tag : Visibility → String
  | .within => "within"
  | .outside => "outside"

def ofTag? : String → Option Visibility
  | "within" => some .within
  | "outside" => some .outside
  | _ => none

def encode (visibility : Visibility) : Value := .ofString visibility.tag
def decode : Decoder Visibility := Decoder.name ofTag?

/-- Inside an extra state the tag may also be the only member of an object with an empty object
below it. -/
def decodeInState : Decoder Visibility
  | _, .object [(some tag, .object [])] => ofTag? tag
  | level, value => decode level value

end Visibility

namespace CallTarget

/-- The tag of a target and its members. -/
def members : CallTarget → List (String × Option Value)
  | .selfModule => [("target", some (.ofString "self_module"))]
  | .robot => [("target", some (.ofString "robot"))]
  | .component inst =>
    [("target", some (.ofString "component")), ("component", some (.ofString inst))]
  | .mechanism inst module =>
    [("target", some (.ofString "mechanism")), ("instance", some (.ofString inst)),
     ("module", some (.ofString module))]
  | .fireEvent => [("target", some (.ofString "fire_event"))]
  | .moduleFunction module =>
    [("target", some (.ofString "module_function")), ("module", some (.ofString module))]

/-- The target tags in the order in which a number may stand for them. -/
def tags : List String :=
  ["self_module", "robot", "component", "mechanism", "fire_event", "module_function"]

def tag? : Value → Option String
  | .string text => text
  | .number numeral => numeral.nat?.bind fun index => tags[index]?
  | _ => none

/-- Reads the target among the members of a call. -/
def ofMembers? (level : Nat) (call : Value) : Option CallTarget := do
  let [tag] ← slots? ["target"] call | none
  let read (name : String) : Option String := do
    let [value] ← slots? [name] call | none
    required string level value
  match ← tag.bind tag? with
  | "self_module" => return .selfModule
  | "robot" => return .robot
  | "component" => return .component (← read "component")
  | "mechanism" => return .mechanism (← read "instance") (← read "module")
  | "fire_event" => return .fireEvent
  | "module_function" => return .moduleFunction (← read "module")
  | _ => none

end CallTarget

namespace CallState

def members (call : CallState) : List (String × Option Value) :=
  call.target.members ++
    [("name", some (.ofString call.name)), ("args", some (Parameter.encodeList call.args)),
     ("return_type", call.returnType.map .ofString),
     ("other_block_id", call.declaration.map BlockId.encode)]

/-- A call is always an object: its target stands among its own members. -/
def decode : Decoder CallState
  | level + 1, .object entries => do
    let [name, args, returnType, declaration] ←
      slots? ["name", "args", "return_type", "other_block_id"] (.object entries) | none
    return { target := ← CallTarget.ofMembers? level (.object entries)
             name := ← required string level name
             args := ← defaulted Parameter.decodeList [] level args
             returnType := ← defaulted (optional string) none level returnType
             declaration := ← defaulted (optional BlockId.decode) none level declaration }
  | _, _ => none

end CallState

def MethodState.decode : Decoder MethodState :=
  record ["params", "return_type", "visibility"] fun level slots => match slots with
    | [params, returnType, visibility] => do
      return { params := ← defaulted Parameter.decodeList [] level params
               returnType := ← defaulted (optional string) none level returnType
               visibility := ← required Visibility.decodeInState level visibility }
    | _ => none

def ComponentState.decode : Decoder ComponentState :=
  record ["class_name", "import_module"] fun level slots => match slots with
    | [className, importModule] => do
      return { className := ← required string level className
               importModule := ← required string level importModule }
    | _ => none

def MechanismState.decode : Decoder MechanismState :=
  record ["class_name", "module_name"] fun level slots => match slots with
    | [className, moduleName] => do
      return { className := ← required string level className
               moduleName := ← required string level moduleName }
    | _ => none

namespace ExtraState

def tag : ExtraState → String
  | .none => "none"
  | .event _ => "event"
  | .method _ => "method"
  | .call _ => "call"
  | .component _ => "component"
  | .mechanism _ => "mechanism"
  | .paramItem _ => "param_item"

def members : ExtraState → List (String × Option Value)
  | .none => []
  | .event params => [("params", some (Parameter.encodeList params))]
  | .method state =>
    [("params", some (Parameter.encodeList state.params)),
     ("return_type", state.returnType.map .ofString),
     ("visibility", some state.visibility.encode)]
  | .call state => state.members
  | .component state =>
    [("class_name", some (.ofString state.className)),
     ("import_module", some (.ofString state.importModule))]
  | .mechanism state =>
    [("class_name", some (.ofString state.className)),
     ("module_name", some (.ofString state.moduleName))]
  | .paramItem formerName => [("original_name", formerName.map .ofString)]

def encode (extra : ExtraState) : Value :=
  .ofMembers (("state", some (.ofString extra.tag)) :: extra.members)

/-- Parts the tag from the rest: the only member `state` of an object, or the first item of an
array. -/
def untag? : Value → Option (String × Value)
  | .object members =>
    match members.partition fun (name, _) => name = some "state" with
    | ([(_, .string (some tag))], rest) => some (tag, .object rest)
    | _ => Option.none
  | .array (.string (some tag) :: rest) => some (tag, .array rest)
  | _ => Option.none

/-- The state of a tag, read from the rest. -/
def decodeTagged (level : Nat) (rest : Value) : String → Option ExtraState
  | "none" => (record [] (fun _ _ => some .none)) level rest
  | "event" =>
    (record ["params"] fun level slots => match slots with
      | [params] => (defaulted Parameter.decodeList [] level params).map .event
      | _ => Option.none) level rest
  | "method" => (MethodState.decode level rest).map .method
  | "call" => (CallState.decode level rest).map .call
  | "component" => (ComponentState.decode level rest).map .component
  | "mechanism" => (MechanismState.decode level rest).map .mechanism
  | "param_item" =>
    (record ["original_name"] fun level slots => match slots with
      | [formerName] =>
        (defaulted (optional string) Option.none level formerName).map .paramItem
      | _ => Option.none) level rest
  | _ => Option.none

/-- A state is read in full before its members are looked at, so nothing in it is skipped. -/
def decode : Decoder ExtraState := fun level value =>
  if readable level value then
    (untag? value).bind fun (tag, rest) => decodeTagged level rest tag
  else Option.none

end ExtraState
end RobotBlocks
