import RobotBlocks.Decimal

/-! JSON documents. Members keep their order and may repeat; a text whose escapes name half of a
surrogate pair is kept as an unreadable text, since only some places of a document refuse it. -/
namespace RobotBlocks.Json

/-- The text of a string or member name, absent when it names no sequence of characters. -/
abbrev Text := Option String

/-- A number as it is written. Two numerals of one value are different. -/
structure Numeral where
  negative : Bool := false
  whole : List Char
  fraction : Option (List Char) := none
  exponent : Option Int := none
  deriving DecidableEq, Repr

inductive Value where
  | null
  | bool (value : Bool)
  | number (value : Numeral)
  | string (text : Text)
  | array (items : List Value)
  | object (members : List (Text × Value))
  deriving Repr, Inhabited

namespace Numeral

def ofNat (n : Nat) : Numeral := ⟨false, Nat.toDigits 10 n, none, none⟩

/-- The natural number that a numeral writes without a sign, a point and an exponent. -/
def nat? : Numeral → Option Nat
  | ⟨false, whole, none, none⟩ => some (Decimal.ofDigits whole)
  | _ => none

end Numeral

namespace Value

def ofString (s : String) : Value := .string (some s)
def ofNat (n : Nat) : Value := .number (.ofNat n)

/-- An object of the members that are present. -/
def ofMembers (members : List (String × Option Value)) : Value :=
  .object (members.filterMap fun (name, value?) => value?.map fun value => (some name, value))

end Value
end RobotBlocks.Json
