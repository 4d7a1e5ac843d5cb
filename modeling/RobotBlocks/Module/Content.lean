import RobotBlocks.Declaration
import RobotBlocks.Forest.Codec
import RobotBlocks.Json.Printer
import RobotBlocks.Module.Type

/-! Stored content of a module: its type, its blocks, what it declares and, for an opmode, its
details. The stored text is canonical, so two contents are equal when their texts are. -/
namespace RobotBlocks

open Json Decoder

structure ModuleContent where
  type : ModuleType
  blocks : Forest := {}
  declarations : Declarations := {}
  opMode : Option OpModeDetails := none
  deriving Repr

/-- Why a text is no content. -/
inductive ContentError where
  | malformed
  | unknownType
  deriving DecidableEq, Repr

def ContentError.message : ContentError → String
  | .malformed => "serialization error"
  | .unknownType => "invalid module content: module type is unknown"

namespace ComponentKind

def tag : ComponentKind → String
  | .component => "component"
  | .mechanism => "mechanism"

def ofTag? : String → Option ComponentKind
  | "component" => some .component
  | "mechanism" => some .mechanism
  | _ => none

end ComponentKind

namespace ComponentDecl

def encode (decl : ComponentDecl) : Value :=
  .ofMembers [("blockId", some decl.block.encode), ("name", some (.ofString decl.name)),
    ("kind", some (.ofString decl.kind.tag)), ("className", some (.ofString decl.className)),
    ("importModule", some (.ofString decl.importModule)), ("port", decl.port.map .ofString)]

def decode : Decoder ComponentDecl :=
  record ["blockId", "name", "kind", "className", "importModule", "port"] fun level slots =>
    match slots with
    | [block, name, kind, className, importModule, port] => do
      return { block := ← required BlockId.decode level block
               name := ← required string level name
               kind := ← required (Decoder.name ComponentKind.ofTag?) level kind
               className := ← required string level className
               importModule := ← required string level importModule
               port := ← defaulted (optional string) none level port }
    | _ => none

end ComponentDecl

namespace EventDecl

def encode (decl : EventDecl) : Value :=
  .ofMembers [("blockId", some decl.block.encode), ("name", some (.ofString decl.name)),
    ("args", some (Parameter.encodeList decl.args))]

def decode : Decoder EventDecl :=
  record ["blockId", "name", "args"] fun level slots => match slots with
    | [block, name, args] => do
      return { block := ← required BlockId.decode level block
               name := ← required string level name
               args := ← required Parameter.decodeList level args }
    | _ => none

end EventDecl

namespace MethodDecl

def encode (decl : MethodDecl) : Value :=
  .ofMembers [("blockId", some decl.block.encode), ("name", some (.ofString decl.name)),
    ("pythonName", some (.ofString decl.identifier)),
    ("visibility", some decl.visibility.encode),
    ("returnType", decl.returnType.map .ofString),
    ("args", some (Parameter.encodeList decl.args))]

def decode : Decoder MethodDecl :=
  record ["blockId", "name", "pythonName", "visibility", "returnType", "args"] fun level slots =>
    match slots with
    | [block, name, identifier, visibility, returnType, args] => do
      return { block := ← required BlockId.decode level block
               name := ← required string level name
               identifier := ← required string level identifier
               visibility := ← required Visibility.decode level visibility
               returnType := ← defaulted (optional string) none level returnType
               args := ← required Parameter.decodeList level args }
    | _ => none

end MethodDecl

namespace OpModeKind

def ofTitle? : String → Option OpModeKind
  | "Auto" => some .auto
  | "Teleop" => some .teleop
  | "Test" => some .test
  | _ => none

end OpModeKind

namespace OpModeDetails

def encode (details : OpModeDetails) : Value :=
  .ofMembers [("type", some (.ofString details.kind.title)),
    ("name", some (.ofString details.name)), ("group", some (.ofString details.group)),
    ("enabled", some (.bool details.enabled))]

def decode : Decoder OpModeDetails :=
  record ["type", "name", "group", "enabled"] fun level slots => match slots with
    | [kind, name, group, enabled] => do
      return { kind := ← required (Decoder.name OpModeKind.ofTitle?) level kind
               name := ← required string level name
               group := ← required string level group
               enabled := ← required bool level enabled }
    | _ => none

end OpModeDetails

namespace Declarations

def members (own : Declarations) : List (String × Option Value) :=
  [("components", some (.array (own.components.map ComponentDecl.encode))),
   ("events", some (.array (own.events.map EventDecl.encode))),
   ("methods", some (.array (own.methods.map MethodDecl.encode)))]

def encode (own : Declarations) : Value := .ofMembers own.members

end Declarations

namespace ModuleContent

def encode (content : ModuleContent) : Value :=
  .ofMembers <|
    [("moduleType", some (.ofString content.type.name)), ("blocks", some content.blocks.encode)]
      ++ content.declarations.members
      ++ [("opMode", content.opMode.map OpModeDetails.encode)]

def decode : Decoder ModuleContent :=
  record ["moduleType", "blocks", "components", "events", "methods", "opMode"] fun level slots =>
    match slots with
    | [type, blocks, components, events, methods, opMode] => do
      return { type := ← required (Decoder.name ModuleType.ofName?) level type
               blocks := ← defaulted Forest.decode {} level blocks
               declarations :=
                 { components := ← defaulted (list ComponentDecl.decode) [] level components
                   events := ← defaulted (list EventDecl.decode) [] level events
                   methods := ← defaulted (list MethodDecl.decode) [] level methods }
               opMode := ← defaulted (optional OpModeDetails.decode) none level opMode }
    | _ => none

/-- The canonical text. -/
def text (content : ModuleContent) : String := content.encode.indented

/-- The content of a text. A document of the unknown type is refused like a malformed one, with a
reason of its own. -/
def parse (text : String) : Except ContentError ModuleContent :=
  match (Value.parse? text).bind (decode levels) with
  | none => .error .malformed
  | some content => if content.type = .unknown then .error .unknownType else .ok content

end ModuleContent
end RobotBlocks
