/-! Hexadecimal digits. A digit is read in either case and written in lower case. -/
namespace RobotBlocks.Text

/-- The value of a hexadecimal digit. -/
def hexDigit? (c : Char) : Option Nat :=
  if '0' ≤ c ∧ c ≤ '9' then some (c.toNat - '0'.toNat)
  else if 'a' ≤ c ∧ c ≤ 'f' then some (c.toNat - 'a'.toNat + 10)
  else if 'A' ≤ c ∧ c ≤ 'F' then some (c.toNat - 'A'.toNat + 10)
  else none

/-- The digit of a value below sixteen. -/
def hexDigit (n : Nat) : Char := (Nat.toDigits 16 n).headD '0'

/-- A written digit reads back. -/
theorem hexDigit?_hexDigit (n : Fin 16) : hexDigit? (hexDigit n) = some n.val := by
  revert n
  decide +kernel

end RobotBlocks.Text
