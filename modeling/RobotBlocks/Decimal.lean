/-! Decimal notation. A decimal is a sign, a coefficient and a power of ten; it is finite when the
double nearest to it is. -/
namespace RobotBlocks

/-- The number `coefficient * 10 ^ exponent`, negated when `negative`. -/
structure Decimal where
  negative : Bool
  coefficient : Nat
  exponent : Int
  deriving DecidableEq, Repr

namespace Decimal

def digitValue (c : Char) : Nat := c.toNat - '0'.toNat

/-- The number that a list of digits writes. -/
def ofDigits (digits : List Char) : Nat :=
  digits.foldl (fun n c => 10 * n + digitValue c) 0

/-- The digits at the front, and what follows them. -/
def spanDigits : List Char → List Char × List Char
  | [] => ([], [])
  | c :: cs =>
    if c.isDigit then ((spanDigits cs).map (c :: ·) id) else ([], c :: cs)

/-- Nothing is lost. -/
theorem spanDigits_append (cs : List Char) : (spanDigits cs).1 ++ (spanDigits cs).2 = cs := by
  induction cs with
  | nil => rfl
  | cons c cs ih =>
    unfold spanDigits
    split
    · simp [ih]
    · rfl

/-- The first part holds digits alone. -/
theorem isDigit_of_mem_spanDigits {c : Char} {cs : List Char} (h : c ∈ (spanDigits cs).1) :
    c.isDigit = true := by
  induction cs with
  | nil => simp [spanDigits] at h
  | cons first rest ih =>
    unfold spanDigits at h
    split at h
    · next digit =>
      rcases List.mem_cons.mp h with same | later
      · exact same ▸ digit
      · exact ih later
    · simp at h

/-- The rest starts with no digit. -/
theorem isDigit_head_spanDigits {c : Char} {cs rest : List Char}
    (h : (spanDigits cs).2 = c :: rest) : c.isDigit = false := by
  induction cs with
  | nil => simp [spanDigits] at h
  | cons first others ih =>
    unfold spanDigits at h
    split at h
    · exact ih h
    · next other =>
      cases h
      exact Bool.eq_false_iff.mpr other

/-- Half a unit above the largest double: from here on a number rounds to infinity. -/
def overflowBound : Nat := Nat.pow 2 1024 - Nat.pow 2 970

/-- Whether the nearest double is a finite one. With `n` digits the number lies between
`10 ^ (n + exponent - 1)` and `10 ^ (n + exponent)`, which settles all cases but one without
computing the power. -/
def isFinite (d : Decimal) : Bool :=
  let magnitude : Int := (Nat.toDigits 10 d.coefficient).length + d.exponent
  if d.coefficient = 0 then true
  else if magnitude < 309 then true
  else if 309 < magnitude then false
  else if 0 ≤ d.exponent then decide (d.coefficient * Nat.pow 10 d.exponent.toNat < overflowBound)
  else decide (d.coefficient < overflowBound * Nat.pow 10 (-d.exponent).toNat)

/-- The exponent after an `e`: an optional sign and at least one digit, and nothing more. -/
def exponentOf? (cs : List Char) : Option Int :=
  let (sign, digits) : Int × List Char := match cs with
    | '-' :: rest => (-1, rest)
    | '+' :: rest => (1, rest)
    | _ => (1, cs)
  if digits.isEmpty || !digits.all Char.isDigit then none else some (sign * ofDigits digits)

/-- Reads digits with an optional point and an optional exponent. Digits may be missing on one
side of the point and not on both. -/
def ofUnsigned? (negative : Bool) (cs : List Char) : Option Decimal :=
  let (whole, rest) := spanDigits cs
  let (fraction, rest) := match rest with
    | '.' :: after => spanDigits after
    | _ => ([], rest)
  if whole.isEmpty && fraction.isEmpty then none
  else
    let coefficient := ofDigits (whole ++ fraction)
    let scale : Int := fraction.length
    match rest with
    | [] => some ⟨negative, coefficient, -scale⟩
    | e :: after =>
      if e == 'e' || e == 'E' then
        (exponentOf? after).map fun exponent => ⟨negative, coefficient, exponent - scale⟩
      else none

/-- Reads a number with an optional sign in front. -/
def ofChars? : List Char → Option Decimal
  | '-' :: rest => ofUnsigned? true rest
  | '+' :: rest => ofUnsigned? false rest
  | cs => ofUnsigned? false cs

def ofString? (s : String) : Option Decimal := ofChars? s.toList

end Decimal
end RobotBlocks
