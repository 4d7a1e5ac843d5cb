import RobotBlocks.Json.Value
import RobotBlocks.Text.Hexadecimal

/-! Printing JSON documents. The compact form has no space at all; the indented form puts every
item and member on a line of its own, two spaces deeper than the container. -/
namespace RobotBlocks.Json.Printer

open RobotBlocks.Text (hexDigit)

/-- Quotes, backslashes and control characters are escaped, all else stands for itself. -/
def escape (c : Char) : List Char :=
  match c with
  | '"' => ['\\', '"']
  | '\\' => ['\\', '\\']
  | '\x08' => ['\\', 'b']
  | '\x0c' => ['\\', 'f']
  | '\n' => ['\\', 'n']
  | '\r' => ['\\', 'r']
  | '\t' => ['\\', 't']
  | c =>
    if c.toNat < 0x20 then ['\\', 'u', '0', '0', hexDigit (c.toNat / 16), hexDigit (c.toNat % 16)]
    else [c]

/-- A string between quotes. An unreadable text is printed as the empty one. -/
def text (t : Text) : List Char := '"' :: (t.getD "").toList.flatMap escape ++ ['"']

def integer (n : Int) : List Char :=
  if n < 0 then '-' :: Nat.toDigits 10 n.natAbs else Nat.toDigits 10 n.natAbs

def numeral (n : Numeral) : List Char :=
  (if n.negative then ['-'] else []) ++ n.whole
    ++ (n.fraction.elim [] fun digits => '.' :: digits)
    ++ (n.exponent.elim [] fun e => 'e' :: integer e)

mutual

def compact : Value → List Char
  | .null => "null".toList
  | .bool true => "true".toList
  | .bool false => "false".toList
  | .number n => numeral n
  | .string t => text t
  | .array [] => ['[', ']']
  | .array (item :: items) => '[' :: compact item ++ compactItems items ++ [']']
  | .object [] => ['\x7b', '\x7d']
  | .object ((name, value) :: members) =>
    '\x7b' :: text name ++ ':' :: compact value ++ compactMembers members ++ ['\x7d']

/-- The items after the first one. -/
def compactItems : List Value → List Char
  | [] => []
  | item :: items => ',' :: compact item ++ compactItems items

/-- The members after the first one. -/
def compactMembers : List (Text × Value) → List Char
  | [] => []
  | (name, value) :: members => ',' :: text name ++ ':' :: compact value ++ compactMembers members

end

/-- The line break in front of a line at a nesting level. -/
def newline (level : Nat) : List Char := '\n' :: List.replicate (2 * level) ' '

mutual

def indented (level : Nat) : Value → List Char
  | .null => "null".toList
  | .bool true => "true".toList
  | .bool false => "false".toList
  | .number n => numeral n
  | .string t => text t
  | .array [] => ['[', ']']
  | .array (item :: items) =>
    '[' :: newline (level + 1) ++ indented (level + 1) item ++ indentedItems level items
      ++ newline level ++ [']']
  | .object [] => ['\x7b', '\x7d']
  | .object ((name, value) :: members) =>
    '\x7b' :: newline (level + 1) ++ text name ++ ':' :: ' ' :: indented (level + 1) value
      ++ indentedMembers level members ++ newline level ++ ['\x7d']

/-- The items after the first one, in a container at the level. -/
def indentedItems (level : Nat) : List Value → List Char
  | [] => []
  | item :: items =>
    ',' :: newline (level + 1) ++ indented (level + 1) item ++ indentedItems level items

/-- The members after the first one, in a container at the level. -/
def indentedMembers (level : Nat) : List (Text × Value) → List Char
  | [] => []
  | (name, value) :: members =>
    ',' :: newline (level + 1) ++ text name ++ ':' :: ' ' :: indented (level + 1) value
      ++ indentedMembers level members

end

end RobotBlocks.Json.Printer

namespace RobotBlocks.Json

def Value.compact (value : Value) : String := String.ofList (Printer.compact value)
def Value.indented (value : Value) : String := String.ofList (Printer.indented 0 value)

end RobotBlocks.Json
