import RobotBlocks.Json.Printer
import RobotBlocks.Json.Reader

/-! Printed strings and numerals are read back as they are. What follows a value in a document never
continues a numeral, so a numeral ends where the printer ended it. -/
namespace RobotBlocks.Json

open Reader

/-! Strings. -/

theorem unit?_control (c : Char) (control : c.toNat < 0x20) :
    unit? '0' '0' (Text.hexDigit (c.toNat / 16)) (Text.hexDigit (c.toNat % 16)) = some c.toNat := by
  have high := Text.hexDigit?_hexDigit ⟨c.toNat / 16, by omega⟩
  have low := Text.hexDigit?_hexDigit ⟨c.toNat % 16, by omega⟩
  have zero : Text.hexDigit? '0' = some 0 := by decide
  simp only [unit?, zero, high, low]
  simp only [Option.pure_def, Option.bind_eq_bind, Option.bind_some, Option.some.injEq]
  omega

theorem pieces?_char {c : Char} (rest : List Char) (quote : c ≠ '"') (slash : c ≠ '\\')
    (plain : ¬ c.toNat < 0x20) :
    pieces? (c :: rest) = (pieces? rest).map fun (pieces, rest) => (.char c :: pieces, rest) := by
  rw [pieces?.eq_def]
  split
  · next h => cases h
  · next h => exact absurd (List.cons.inj h).1 quote
  · next h => exact absurd (List.cons.inj h).1 slash
  · next h => exact absurd (List.cons.inj h).1 slash
  · next h =>
    obtain ⟨rfl, rfl⟩ := List.cons.inj h
    rw [if_neg (by simp [plain, slash])]

theorem pieces?_letter {letter c : Char} (rest : List Char) (known : escaped? letter = some c) :
    pieces? ('\\' :: letter :: rest)
      = (pieces? rest).map fun (pieces, rest) => (.char c :: pieces, rest) := by
  have other : letter ≠ 'u' := by
    rintro rfl
    cases known
  rw [pieces?]
  · rw [known]
    cases pieces? rest <;> rfl
  · intro a b c d more same
    exact absurd same other

theorem pieces?_escape (c : Char) (rest : List Char) :
    pieces? (Printer.escape c ++ rest)
      = (pieces? rest).map fun (pieces, rest) => (.char c :: pieces, rest) := by
  unfold Printer.escape
  split
  case h_8 quote slash _ _ _ _ _ =>
    split
    · next control =>
      simp only [List.cons_append, List.nil_append]
      rw [pieces?, unit?_control _ control]
      have whole : pieceOfUnit c.toNat = .char c := by
        have low : ¬ 0xD800 ≤ c.toNat := by omega
        simp [pieceOfUnit, low]
      cases pieces? rest <;> simp [whole]
    · next plain => exact pieces?_char rest quote slash plain
  all_goals exact pieces?_letter rest rfl

theorem joinHalves_chars (cs : List Char) : joinHalves (cs.map .char) = some cs := by
  induction cs with
  | nil => rfl
  | cons c cs ih => simp [joinHalves, ih]

theorem text?_text (s : String) (rest : List Char) :
    text? (s.toList.flatMap Printer.escape ++ '"' :: rest) = some (some s, rest) := by
  have pieces : ∀ cs : List Char,
      pieces? (cs.flatMap Printer.escape ++ '"' :: rest) = some (cs.map .char, rest) := by
    intro cs
    induction cs with
    | nil => rw [List.flatMap_nil, List.nil_append, pieces?, List.map_nil]
    | cons c cs ih =>
      rw [List.flatMap_cons, List.append_assoc, pieces?_escape, ih]
      rfl
  simp only [text?, pieces, Option.map_some, joinHalves_chars, String.ofList_toList]


/-! Numerals. -/

/-- At least one digit, and no zero in front of another digit. -/
structure Numeral.WellFormed (n : Numeral) : Prop where
  digits : ∀ c ∈ n.whole, c.isDigit = true
  some_digit : n.whole ≠ []
  no_zero : ∀ c rest, n.whole ≠ '0' :: c :: rest
  fraction : ∀ digits, n.fraction = some digits →
    digits ≠ [] ∧ ∀ c ∈ digits, c.isDigit = true

/-- What stands here cannot continue a numeral. -/
def Stops (rest : List Char) : Prop :=
  ∀ c cs, rest = c :: cs → c.isDigit = false ∧ c ≠ '.' ∧ c ≠ 'e' ∧ c ≠ 'E'

theorem ofDigits_toDigits (n : Nat) : Decimal.ofDigits (Nat.toDigits 10 n) = n :=
  Nat.ofDigitChars_ten_toDigits

theorem toDigits_head (n : Nat) (positive : 0 < n) :
    ∃ c cs, Nat.toDigits 10 n = c :: cs ∧ c ≠ '0' := by
  induction n using Nat.strongRecOn with
  | ind n ih =>
    rw [Nat.toDigits_eq_if (by decide)]
    split
    · next small =>
      refine ⟨n.digitChar, [], rfl, ?_⟩
      have nonzero : ∀ n, n < 10 → 0 < n → n.digitChar ≠ '0' := by decide
      exact nonzero n small positive
    · next large =>
      obtain ⟨c, cs, same, nonzero⟩ := ih (n / 10) (by omega) (by omega)
      exact ⟨c, cs ++ [(n % 10).digitChar], by rw [same, List.cons_append], nonzero⟩

theorem isDigit_toDigits {n : Nat} {c : Char} (member : c ∈ Nat.toDigits 10 n) :
    c.isDigit = true :=
  Nat.isDigit_of_mem_toDigits (by decide) (by decide) member

theorem Numeral.wellFormed_ofNat (n : Nat) : (Numeral.ofNat n).WellFormed where
  digits _ member := isDigit_toDigits member
  some_digit := Nat.toDigits_ne_nil
  no_zero c rest same := by
    rcases Nat.eq_zero_or_pos n with rfl | positive
    · cases (Nat.toDigits_zero 10).symm.trans same
    · obtain ⟨head, cs, digits, nonzero⟩ := toDigits_head n positive
      exact nonzero (List.cons.inj (digits.symm.trans same)).1
  fraction _ none := nomatch none

theorem spanDigits_digits {digits rest : List Char} (all : ∀ c ∈ digits, c.isDigit = true)
    (stops : ∀ c cs, rest = c :: cs → c.isDigit = false) :
    Decimal.spanDigits (digits ++ rest) = (digits, rest) := by
  induction digits with
  | nil =>
    cases rest with
    | nil => rfl
    | cons c cs => simp [Decimal.spanDigits, stops c cs rfl]
  | cons c digits ih =>
    have here := all c (List.mem_cons_self ..)
    have later := ih fun other member => all other (List.mem_cons_of_mem _ member)
    rw [List.cons_append, Decimal.spanDigits, if_pos here, later]
    rfl

theorem fraction?_fraction {n : Numeral} (wellFormed : n.WellFormed) {rest : List Char}
    (stops : ∀ c cs, rest = c :: cs → c.isDigit = false ∧ c ≠ '.') :
    fraction? ((n.fraction.elim [] fun digits => '.' :: digits) ++ rest)
      = some (n.fraction, rest) := by
  cases shape : n.fraction with
  | none =>
    cases rest with
    | nil => rfl
    | cons c cs =>
      have other := (stops c cs rfl).2
      simp only [Option.elim_none, List.nil_append]
      rw [fraction?.eq_def]
      split
      · next same => exact absurd (List.cons.inj same).1 other
      · rfl
  | some digits =>
    obtain ⟨nonempty, all⟩ := wellFormed.fraction digits shape
    have span := spanDigits_digits all fun c cs same => (stops c cs same).1
    simp only [Option.elim_some, List.cons_append, fraction?, span]

theorem exponent?_negative {c : Char} {digits cs rest : List Char}
    (span : Decimal.spanDigits cs = (c :: digits, rest)) :
    exponent? ('e' :: '-' :: cs) = some (some (-(Decimal.ofDigits (c :: digits) : Int)), rest) := by
  unfold exponent?
  simp [span]

theorem exponent?_unsigned {c : Char} {cs digits rest : List Char} (digit : c.isDigit = true)
    (span : Decimal.spanDigits (c :: cs) = (c :: digits, rest)) :
    exponent? ('e' :: c :: cs) = some (some (Decimal.ofDigits (c :: digits) : Int), rest) := by
  have signless : c ≠ '-' ∧ c ≠ '+' := by
    constructor
    · rintro rfl
      revert digit
      decide
    · rintro rfl
      revert digit
      decide
  unfold exponent?
  simp [signless, span]

theorem exponent?_exponent (exponent : Option Int) {rest : List Char} (stops : Stops rest) :
    exponent? ((exponent.elim [] fun e => 'e' :: Printer.integer e) ++ rest)
      = some (exponent, rest) := by
  cases exponent with
  | none =>
    cases rest with
    | nil => rfl
    | cons c cs =>
      obtain ⟨-, -, small, large⟩ := stops c cs rfl
      simp [exponent?, small, large]
  | some e =>
    have span := spanDigits_digits (fun _ => isDigit_toDigits (n := e.natAbs)) fun c cs same =>
      (stops c cs same).1
    have value : Decimal.ofDigits (Nat.toDigits 10 e.natAbs) = e.natAbs := ofDigits_toDigits _
    obtain ⟨c, cs, digits⟩ :=
      List.exists_cons_of_ne_nil (Nat.toDigits_ne_nil (b := 10) (n := e.natAbs))
    have digit : c.isDigit = true :=
      isDigit_toDigits (n := e.natAbs) (by rw [digits]; exact List.mem_cons_self ..)
    rw [digits] at span value
    by_cases negative : e < 0
    · simp only [Option.elim_some, Printer.integer, if_pos negative, digits, List.cons_append]
        at span ⊢
      rw [exponent?_negative span, value]
      have same : -(e.natAbs : Int) = e := by omega
      rw [same]
    · simp only [Option.elim_some, Printer.integer, if_neg negative, digits, List.cons_append]
        at span ⊢
      rw [exponent?_unsigned digit span, value]
      have same : (e.natAbs : Int) = e := by omega
      rw [same]

theorem numeral?_numeral {n : Numeral} (wellFormed : n.WellFormed) {rest : List Char}
    (stops : Stops rest) : numeral? (Printer.numeral n ++ rest) = some (n, rest) := by
  have exponent := exponent?_exponent n.exponent stops
  have afterwards : ∀ c cs, (n.exponent.elim [] fun e => 'e' :: Printer.integer e) ++ rest = c :: cs →
      c.isDigit = false ∧ c ≠ '.' := by
    intro c cs same
    cases shape : n.exponent with
    | none =>
      rw [shape, Option.elim_none, List.nil_append] at same
      obtain ⟨other, point, -⟩ := stops c cs same
      exact ⟨other, point⟩
    | some e =>
      rw [shape, Option.elim_some, List.cons_append] at same
      cases same
      decide
  have fraction := fraction?_fraction wellFormed afterwards
  have later : ∀ c cs, (n.fraction.elim [] fun digits => '.' :: digits) ++
      ((n.exponent.elim [] fun e => 'e' :: Printer.integer e) ++ rest) = c :: cs →
      c.isDigit = false := by
    intro c cs same
    cases shape : n.fraction with
    | none =>
      rw [shape, Option.elim_none, List.nil_append] at same
      exact (afterwards c cs same).1
    | some digits =>
      rw [shape, Option.elim_some, List.cons_append] at same
      cases same
      decide
  have whole := spanDigits_digits wellFormed.digits later
  have unsigned : unsigned? n.negative (n.whole ++
      ((n.fraction.elim [] fun digits => '.' :: digits) ++
        ((n.exponent.elim [] fun e => 'e' :: Printer.integer e) ++ rest))) = some (n, rest) := by
    unfold unsigned?
    rw [whole]
    split
    · next same => exact absurd (Prod.mk.inj same).1 wellFormed.some_digit
    · next same => exact absurd (Prod.mk.inj same).1 (wellFormed.no_zero _ _)
    · next same =>
      obtain ⟨rfl, rfl⟩ := Prod.mk.inj same
      simp only [fraction, exponent, Option.pure_def, Option.bind_eq_bind, Option.bind_some]
  unfold Printer.numeral
  simp only [List.append_assoc]
  cases sign : n.negative with
  | true =>
    rw [sign] at unsigned
    simpa [numeral?] using unsigned
  | false =>
    rw [sign] at unsigned
    obtain ⟨c, cs, digits⟩ := List.exists_cons_of_ne_nil wellFormed.some_digit
    have digit := wellFormed.digits c (by rw [digits]; exact List.mem_cons_self ..)
    have signless : c ≠ '-' := by
      rintro rfl
      revert digit
      decide
    rw [digits] at unsigned ⊢
    simpa [numeral?, signless] using unsigned

end RobotBlocks.Json
