import RobotBlocks.Forest.Basic
import RobotBlocks.Block.Codec
import RobotBlocks.Json.Reader

/-! Stored text of forests. -/
namespace RobotBlocks

open Json Decoder

/-- Members as entries under distinct names: of two members of one name the later value wins and
the earlier place stays. -/
def Labelled.ofMembers? {α : Type} (item : Value → Option α) (members : List (Text × Value)) :
    Option (Labelled α) := do
  let entries ← members.mapM fun (name, value) => do return (← name, ← item value)
  return .ofPairs entries

def Labelled.decode {α : Type} (item : Decoder α) : Decoder (Labelled α)
  | level + 1, .object members => Labelled.ofMembers? (item level) members
  | _, _ => none

def Labelled.encode {α : Type} (item : α → Value) (entries : Labelled α) : Value :=
  .object (entries.map fun (name, value) => (some name, item value))

namespace BlockTree

def encodeFields? (fields : Labelled String) : Option Value :=
  if fields.isEmpty then none else some (fields.encode .ofString)

def encodeExtra? : ExtraState → Option Value
  | .none => none
  | extra => some extra.encode

mutual

/-- Fields, state and inputs are left out when they hold nothing. -/
def encode : BlockTree → Value
  | node id kind fields extra inputs =>
    .ofMembers [("id", some id.encode), ("type", some kind.encode),
      ("fields", encodeFields? fields), ("extraState", encodeExtra? extra),
      ("inputs", if inputs.isEmpty then none else some (.object (encodeInputs inputs)))]

def encodeInputs : List (String × List BlockTree) → List (Text × Value)
  | [] => []
  | (name, chain) :: inputs => (some name, .array (encodeChain chain)) :: encodeInputs inputs

def encodeChain : List BlockTree → List Value
  | [] => []
  | tree :: chain => encode tree :: encodeChain chain

end

mutual

def decode : Decoder BlockTree
  | 0, _ => none
  | level + 1, value => do
    let [id, kind, fields, extra, inputs] ←
      slots? ["id", "type", "fields", "extraState", "inputs"] value | none
    return node (← required BlockId.decode level id) (← required Kind.decode level kind)
      (← defaulted (Labelled.decode string) [] level fields)
      (← defaulted ExtraState.decode .none level extra)
      (← match inputs with
        | none => some []
        | some inputs => decodeInputs level inputs)

def decodeInputs : Decoder (Labelled (List BlockTree))
  | level + 1, .object members => Labelled.ofMembers? (decodeChain level) members
  | _, _ => none

def decodeChain : Decoder (List BlockTree)
  | level + 1, .array trees => trees.mapM (decode level)
  | _, _ => none

end

end BlockTree

namespace Forest

def encode (forest : Forest) : Value :=
  .ofMembers [("stacks",
    some (.array (forest.chains.map fun stack => .array (BlockTree.encodeChain stack))))]

def decode : Decoder Forest :=
  record ["stacks"] fun level slots => match slots with
    | [chains] => do
      return { chains := ← defaulted (list BlockTree.decodeChain) [] level chains }
    | _ => none

/-- The forest that a text holds. -/
def parse? (text : String) : Option Forest :=
  (Value.parse? text).bind (decode levels)

end Forest
end RobotBlocks
