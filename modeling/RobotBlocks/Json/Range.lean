import RobotBlocks.Json.Value

/-! The range of numerals. A numeral is scaled in steps: its leading digits as far as 64 bits hold
them, rounded to a double, times a rounded power of ten. It is out of range when that product
exceeds every double. -/
namespace RobotBlocks.Json

/-- The nearest number of 53 significant bits; a tie goes to the even neighbour. -/
def nearestDouble (n : Nat) : Nat :=
  if n < Nat.pow 2 53 then n
  else
    let unit := Nat.pow 2 (Nat.log2 n - 52)
    let quotient := n / unit
    let doubled := 2 * (n % unit)
    (if unit < doubled ∨ (doubled = unit ∧ quotient % 2 = 1) then quotient + 1 else quotient) * unit

/-- Appends digits to a number while 64 bits hold it, and gives the digits left over. -/
def takeDigits : Nat → List Char → Nat × List Char
  | n, [] => (n, [])
  | n, c :: cs =>
    let longer := 10 * n + Decimal.digitValue c
    if longer < Nat.pow 2 64 then takeDigits longer cs else (n, c :: cs)

def Numeral.outOfRange (numeral : Numeral) : Bool :=
  let (whole, dropped) := takeDigits 0 numeral.whole
  let digits := numeral.fraction.getD []
  let (coefficient, ignored) := takeDigits whole digits
  let exponent : Int :=
    dropped.length - (digits.length - ignored.length : Nat) + numeral.exponent.getD 0
  coefficient ≠ 0 && decide (0 ≤ exponent) &&
    (decide (308 < exponent) ||
      decide (Decimal.overflowBound
        ≤ nearestDouble coefficient * nearestDouble (Nat.pow 10 exponent.toNat)))

end RobotBlocks.Json
