import RobotBlocks.Json.Range

/-! Decoding documents into data. A decoder gets the number of container levels that may still be
opened and refuses a document that nests deeper; what it skips is not counted. -/
namespace RobotBlocks.Json

/-- Reads a value below which so many levels of containers may open. -/
abbrev Decoder (α : Type) := Nat → Value → Option α

namespace Decoder

/-- How many containers may be open at once. -/
def levels : Nat := 127

variable {α : Type}

def string : Decoder String
  | _, .string text => text
  | _, _ => none

def bool : Decoder Bool
  | _, .bool b => some b
  | _, _ => none

/-- A natural number below a bound. -/
def natBelow (bound : Nat) : Decoder Nat
  | _, .number numeral => numeral.nat?.filter fun n => n < bound
  | _, _ => none

/-- A value, or `null` for none. -/
def optional (decode : Decoder α) : Decoder (Option α)
  | _, .null => some none
  | level, value => (decode level value).map some

def list (decode : Decoder α) : Decoder (List α)
  | level + 1, .array items => items.mapM (decode level)
  | _, _ => none

/-- One name of a fixed set, as a string or as an object whose only member is `null`. -/
def name (ofName? : String → Option α) : Decoder α
  | _, .string text => text.bind ofName?
  | _ + 1, .object [(some name, .null)] => ofName? name
  | _, _ => none

/-- The values under known member names. A name may be missing and must not repeat; unknown
members are skipped, though their names must be readable. An array gives the values in the order
of the names and must not be longer. -/
def slots? (names : List String) : Value → Option (List (Option Value))
  | .object members =>
    if members.all fun (name, _) => name.isSome then
      names.mapM fun name =>
        match members.filter fun (other, _) => other = some name with
        | [] => some none
        | [(_, value)] => some (some value)
        | _ => none
    else none
  | .array items =>
    if items.length ≤ names.length then
      some (items.map some ++ List.replicate (names.length - items.length) none)
    else none
  | _ => none

/-- A structure with named members, built from their values one level deeper. -/
def record (names : List String) (build : Nat → List (Option Value) → Option α) : Decoder α
  | 0, _ => none
  | level + 1, value => (slots? names value).bind (build level)

/-- A member that must be present. -/
def required (decode : Decoder α) (level : Nat) (slot : Option Value) : Option α :=
  slot.bind (decode level)

/-- A member that may be missing. -/
def defaulted (decode : Decoder α) (default : α) (level : Nat) : Option Value → Option α
  | none => some default
  | some value => decode level value

/-- Whether a value can be read in full: its texts name characters, its numbers are in range and
it nests no deeper than the levels. -/
def readable : Nat → Value → Bool
  | _, .number numeral => !numeral.outOfRange
  | _, .string text => text.isSome
  | level + 1, .array items => items.all (readable level)
  | level + 1, .object members =>
    members.all fun (name, value) => name.isSome && readable level value
  | 0, .array _ | 0, .object _ => false
  | _, .null | _, .bool _ => true

end Decoder
end RobotBlocks.Json
