import Mathlib.Algebra.Order.Field.Rat
import Mathlib.Data.List.Basic
import RobotBlocks.Decimal

/-! What decimal notation is read, and what it writes. A number is a mantissa with a point or none, and a power of ten
may follow. The rules are told over any kind of runs of digits; the reader takes exactly those texts in which the
runs are digits alone. -/
namespace RobotBlocks.Decimal

/-- The number that a decimal is. -/
def value (d : Decimal) : ℚ := (if d.negative then -1 else 1) * (d.coefficient * 10 ^ d.exponent)

/-- The number that digits stand for in a base. -/
def number (base : Nat) (digits : List Nat) : Nat := digits.foldl (fun n digit => base * n + digit) 0

/-! The rules. -/

section

variable (Run : List Char → List Nat → Prop)

/-- An optional sign and at least one digit. -/
inductive Exponent : List Char → Int → Prop where
  | bare {cs : List Char} {ds : List Nat} (some : cs ≠ []) (run : Run cs ds) : Exponent cs (number 10 ds)
  | plus {cs : List Char} {ds : List Nat} (some : cs ≠ []) (run : Run cs ds) : Exponent ('+' :: cs) (number 10 ds)
  | minus {cs : List Char} {ds : List Nat} (some : cs ≠ []) (run : Run cs ds) :
      Exponent ('-' :: cs) (-number 10 ds)

/-- The digits in front of a point and behind it. They may be missing on one side and not on both. -/
inductive Mantissa : List Char → List Nat → List Nat → Prop where
  | whole {cs : List Char} {ds : List Nat} (some : cs ≠ []) (run : Run cs ds) : Mantissa cs ds []
  | pointed {cs behind : List Char} {ds fraction : List Nat} (some : cs ≠ [] ∨ behind ≠ []) (run : Run cs ds)
      (after : Run behind fraction) : Mantissa (cs ++ '.' :: behind) ds fraction

/-- The coefficient of a number and its power of ten. -/
inductive Spells : List Char → Nat → Int → Prop where
  | plain {cs : List Char} {ds fraction : List Nat} (mantissa : Mantissa Run cs ds fraction) :
      Spells cs (number 10 (ds ++ fraction)) (-fraction.length)
  | scaled {cs power : List Char} {ds fraction : List Nat} {letter : Char} {exponent : Int}
      (mantissa : Mantissa Run cs ds fraction) (marked : letter = 'e' ∨ letter = 'E')
      (raised : Exponent Run power exponent) :
      Spells (cs ++ letter :: power) (number 10 (ds ++ fraction)) (exponent - fraction.length)

end

section

variable {Run Run' : List Char → List Nat → Prop} {cs : List Char} {ds fraction : List Nat} {n : Nat} {exponent : Int}

/-- Other runs of digits will do if those that stand in the text are among them. -/
theorem Exponent.imp (spells : Exponent Run cs exponent)
    (inside : ∀ part ds, part ⊆ cs → Run part ds → Run' part ds) : Exponent Run' cs exponent := by
  cases spells with
  | bare some run => exact .bare some (inside _ _ (List.Subset.refl _) run)
  | plus some run => exact .plus some (inside _ _ (List.subset_cons_self ..) run)
  | minus some run => exact .minus some (inside _ _ (List.subset_cons_self ..) run)

theorem Mantissa.imp (spells : Mantissa Run cs ds fraction)
    (inside : ∀ part ds, part ⊆ cs → Run part ds → Run' part ds) : Mantissa Run' cs ds fraction := by
  cases spells with
  | whole some run => exact .whole some (inside _ _ (List.Subset.refl _) run)
  | pointed some run after =>
    refine .pointed some (inside _ _ (List.subset_append_left ..) run) (inside _ _ ?_ after)
    exact List.subset_append_of_subset_right _ (List.subset_cons_self ..)

theorem Spells.imp (spells : Spells Run cs n exponent)
    (inside : ∀ part ds, part ⊆ cs → Run part ds → Run' part ds) : Spells Run' cs n exponent := by
  cases spells with
  | plain mantissa => exact .plain (mantissa.imp inside)
  | scaled mantissa marked raised =>
    refine .scaled (mantissa.imp fun part ds within => inside part ds ?_) marked
      (raised.imp fun part ds within => inside part ds ?_)
    · exact List.subset_append_of_subset_left _ within
    · exact List.subset_append_of_subset_right _ (List.subset_cons_of_subset _ within)

end

/-! The reader. -/

variable {cs rest : List Char} {ds : List Nat} {n : Nat} {exponent : Int} {negative : Bool} {d : Decimal}

/-- Digits alone, or nothing. -/
def PlainRun (cs : List Char) (ds : List Nat) : Prop := (∀ c ∈ cs, c.isDigit = true) ∧ ds = cs.map digitValue

theorem PlainRun.of_digits (all : ∀ c ∈ cs, c.isDigit = true) : PlainRun cs (cs.map digitValue) := ⟨all, rfl⟩

theorem ofDigits_eq (cs : List Char) : ofDigits cs = number 10 (cs.map digitValue) :=
  (List.foldl_map ..).symm

/-- Digits are taken up to the first other character. -/
theorem spanDigits_eq (all : ∀ c ∈ cs, c.isDigit = true) (ends : ∀ c ∈ rest.head?, c.isDigit = false) :
    spanDigits (cs ++ rest) = (cs, rest) := by
  induction cs with
  | nil =>
    cases rest with
    | nil => rfl
    | cons c rest => simp [spanDigits, ends c rfl]
  | cons c cs ih =>
    obtain ⟨digit, all⟩ := List.forall_mem_cons.mp all
    simp [spanDigits, digit, ih all]

theorem spanDigits_spec (cs : List Char) : ∃ digits rest, cs = digits ++ rest ∧
    (∀ c ∈ digits, c.isDigit = true) ∧ ∀ c ∈ rest.head?, c.isDigit = false := by
  refine ⟨_, _, (spanDigits_append cs).symm, fun c => isDigit_of_mem_spanDigits, fun c first => ?_⟩
  obtain ⟨rest, is⟩ := List.head?_eq_some_iff.mp first
  exact isDigit_head_spanDigits is

theorem exponentOf?_eq_some_iff : exponentOf? cs = some exponent ↔ Exponent PlainRun cs exponent := by
  have unsigned : ∀ {sign : Int} {digits : List Char},
      (if digits.isEmpty || !digits.all Char.isDigit then none else some (sign * ofDigits digits)) = some exponent ↔
        digits ≠ [] ∧ (∀ c ∈ digits, c.isDigit = true) ∧ sign * number 10 (digits.map digitValue) = exponent := by
    intro sign digits
    by_cases some : digits = []
    · simp [some]
    · by_cases all : ∀ c ∈ digits, c.isDigit = true
      · simp only [List.isEmpty_iff, some, List.all_eq_true.mpr all, Bool.not_true, Bool.or_false, if_false,
          Option.some.injEq, ofDigits_eq, ne_eq, not_false_eq_true, true_and]
        exact ⟨fun same => ⟨all, same⟩, And.right⟩
      · simp [some, all]
  have minus : ∀ {rest : List Char}, (∀ c ∈ '-' :: rest, c.isDigit = true) → False := fun all =>
    absurd (all '-' (List.mem_cons_self ..)) (by decide)
  have plus : ∀ {rest : List Char}, (∀ c ∈ '+' :: rest, c.isDigit = true) → False := fun all =>
    absurd (all '+' (List.mem_cons_self ..)) (by decide)
  unfold exponentOf?
  split
  next sign digits signed =>
  rw [unsigned]
  split at signed
  · next rest =>
    cases signed
    constructor
    · rintro ⟨some, all, rfl⟩
      rw [Int.neg_one_mul]
      exact .minus some (.of_digits all)
    · rintro (⟨some, all, rfl⟩ | _ | ⟨some, all, rfl⟩)
      · exact (minus all).elim
      · exact ⟨some, all, Int.neg_one_mul _⟩
  · next rest =>
    cases signed
    constructor
    · rintro ⟨some, all, rfl⟩
      rw [Int.one_mul]
      exact .plus some (.of_digits all)
    · rintro (⟨some, all, rfl⟩ | ⟨some, all, rfl⟩ | _)
      · exact (plus all).elim
      · exact ⟨some, all, Int.one_mul _⟩
  · next noMinus noPlus =>
    cases signed
    constructor
    · rintro ⟨some, all, rfl⟩
      rw [Int.one_mul]
      exact .bare some (.of_digits all)
    · rintro (⟨some, all, rfl⟩ | ⟨some, all, rfl⟩ | ⟨some, all, rfl⟩)
      · exact ⟨some, all, Int.one_mul _⟩
      · exact (noPlus _ rfl).elim
      · exact (noMinus _ rfl).elim

/-- The power of ten behind a mantissa. -/
def power? : List Char → Option Int
  | [] => some 0
  | e :: after => if e == 'e' || e == 'E' then exponentOf? after else none

theorem power?_eq_some_iff : power? cs = some exponent ↔ cs = [] ∧ exponent = 0 ∨
    ∃ letter after, cs = letter :: after ∧ (letter = 'e' ∨ letter = 'E') ∧ Exponent PlainRun after exponent := by
  cases cs with
  | nil => simp [power?, eq_comm]
  | cons letter after =>
    simp only [power?, ← exponentOf?_eq_some_iff]
    simp

/-- The digits behind a point, if one comes next. -/
def spanFraction (cs : List Char) : List Char × List Char :=
  match cs with
  | '.' :: after => spanDigits after
  | _ => ([], cs)

/-- A number of the digits on both sides of a point and of what stands behind them. -/
def assemble? (negative : Bool) (whole fraction tail : List Char) : Option Decimal :=
  if whole.isEmpty && fraction.isEmpty then none
  else match tail with
    | [] => some ⟨negative, ofDigits (whole ++ fraction), -fraction.length⟩
    | letter :: power =>
      if letter == 'e' || letter == 'E' then
        (exponentOf? power).map fun exponent => ⟨negative, ofDigits (whole ++ fraction), exponent - fraction.length⟩
      else none

theorem assemble?_eq (whole fraction tail : List Char) : assemble? negative whole fraction tail =
    if whole = [] ∧ fraction = [] then none else
      (power? tail).map fun exponent => ⟨negative, ofDigits (whole ++ fraction), exponent - fraction.length⟩ := by
  simp only [assemble?, Bool.and_eq_true, List.isEmpty_iff]
  cases tail with
  | nil => simp only [power?, Option.map_some, Int.zero_sub]
  | cons letter power =>
    simp only [power?]
    split
    · rfl
    · split <;> rfl

/-- The reader takes the digits in front of a point, then those behind it, and then the power of ten. -/
theorem ofUnsigned?_eq {whole after fraction tail : List Char} (first : spanDigits cs = (whole, after))
    (second : spanFraction after = (fraction, tail)) :
    ofUnsigned? negative cs = if whole = [] ∧ fraction = [] then none else
      (power? tail).map fun exponent => ⟨negative, ofDigits (whole ++ fraction), exponent - fraction.length⟩ := by
  have parts : ofUnsigned? negative cs =
      assemble? negative (spanDigits cs).1 (spanFraction (spanDigits cs).2).1 (spanFraction (spanDigits cs).2).2 := rfl
  rw [parts, first, second, assemble?_eq]

/-- A number is a mantissa and what the reader takes for its power of ten. -/
theorem spells_plainRun_iff : Spells PlainRun cs n exponent ↔ ∃ front tail ds fraction power,
    cs = front ++ tail ∧ Mantissa PlainRun front ds fraction ∧ power? tail = some power ∧
      n = number 10 (ds ++ fraction) ∧ exponent = power - fraction.length := by
  simp only [power?_eq_some_iff]
  constructor
  · rintro (mantissa | ⟨mantissa, marked, raised⟩)
    · exact ⟨_, [], _, _, 0, by simp, mantissa, .inl ⟨rfl, rfl⟩, rfl, by simp⟩
    · exact ⟨_, _, _, _, _, rfl, mantissa, .inr ⟨_, _, rfl, marked, raised⟩, rfl, rfl⟩
  · rintro ⟨front, tail, ds, fraction, power, rfl, mantissa, raised, rfl, rfl⟩
    rcases raised with ⟨rfl, rfl⟩ | ⟨letter, after, rfl, marked, raised⟩
    · rw [List.append_nil, Int.zero_sub]
      exact .plain mantissa
    · exact .scaled mantissa marked raised

/-- What the reader takes for a mantissa is one, and it leaves what stands behind it. -/
theorem mantissa_of_read (cs : List Char) : ∃ whole after behind tail, spanDigits cs = (whole, after) ∧
    spanFraction after = (behind, tail) ∧ (¬(whole = [] ∧ behind = []) → ∃ front, cs = front ++ tail ∧
      Mantissa PlainRun front (whole.map digitValue) (behind.map digitValue)) := by
  obtain ⟨whole, after, rfl, all, ends⟩ := spanDigits_spec cs
  refine ⟨whole, after, ?_⟩
  by_cases pointed : ∃ rest, after = '.' :: rest
  · obtain ⟨rest, rfl⟩ := pointed
    obtain ⟨behind, tail, rfl, digits, last⟩ := spanDigits_spec rest
    refine ⟨behind, tail, spanDigits_eq all ends, spanDigits_eq digits last, fun some => ?_⟩
    exact ⟨whole ++ '.' :: behind, by simp, .pointed (not_and_or.mp some) (.of_digits all) (.of_digits digits)⟩
  · have silent : spanFraction after = ([], after) := by
      unfold spanFraction
      split
      · next rest => exact (pointed ⟨rest, rfl⟩).elim
      · rfl
    refine ⟨[], after, spanDigits_eq all ends, silent, fun some => ?_⟩
    exact ⟨whole, rfl, .whole (fun none => some ⟨none, rfl⟩) (.of_digits all)⟩

/-- A mantissa is taken whole. -/
theorem read_of_mantissa {front tail : List Char} {fraction : List Nat} (mantissa : Mantissa PlainRun front ds fraction)
    (ends : ∀ c ∈ tail.head?, c = 'e' ∨ c = 'E') : ∃ whole after behind, spanDigits (front ++ tail) = (whole, after) ∧
      spanFraction after = (behind, tail) ∧ ¬(whole = [] ∧ behind = []) ∧ ds = whole.map digitValue ∧
        fraction = behind.map digitValue := by
  have last : ∀ c ∈ tail.head?, c.isDigit = false := fun c first => by
    rcases ends c first with rfl | rfl <;> decide
  cases mantissa with
  | whole some run =>
    obtain ⟨all, rfl⟩ := run
    refine ⟨front, tail, [], spanDigits_eq all last, ?_, fun none => some none.1, rfl, rfl⟩
    unfold spanFraction
    split
    · next rest =>
      rcases ends '.' rfl with is | is <;> exact absurd is (by decide)
    · rfl
  | @pointed whole behind _ _ some run after =>
    obtain ⟨all, rfl⟩ := run
    obtain ⟨digits, rfl⟩ := after
    refine ⟨whole, '.' :: (behind ++ tail), behind, ?_, spanDigits_eq digits last, not_and_or.mpr some, rfl, rfl⟩
    rw [List.append_assoc]
    exact spanDigits_eq all fun c first => by
      cases first
      decide

/-- The reader takes exactly the numbers whose runs are digits alone. -/
theorem ofUnsigned?_eq_some_iff : ofUnsigned? negative cs = some d ↔
    d.negative = negative ∧ Spells PlainRun cs d.coefficient d.exponent := by
  rw [spells_plainRun_iff]
  constructor
  · intro read
    obtain ⟨whole, after, behind, tail, first, second, mantissa⟩ := mantissa_of_read cs
    rw [ofUnsigned?_eq first second] at read
    split at read
    · cases read
    · next some =>
      obtain ⟨power, raised, rfl⟩ := Option.map_eq_some_iff.mp read
      obtain ⟨front, rfl, spelled⟩ := mantissa some
      refine ⟨rfl, front, tail, _, _, power, rfl, spelled, raised, ?_, by simp⟩
      rw [ofDigits_eq, List.map_append]
  · rintro ⟨rfl, front, tail, ds, fraction, power, rfl, mantissa, raised, coefficient, scaled⟩
    have ends : ∀ c ∈ tail.head?, c = 'e' ∨ c = 'E' := by
      rcases power?_eq_some_iff.mp raised with ⟨rfl, -⟩ | ⟨letter, rest, rfl, marked, -⟩
      · nofun
      · intro c first
        cases first
        exact marked
    obtain ⟨whole, after, behind, first, second, some, rfl, rfl⟩ := read_of_mantissa mantissa ends
    rw [ofUnsigned?_eq first second, if_neg some, raised, Option.map_some, Option.some.injEq, ofDigits_eq,
      List.map_append, ← coefficient]
    rw [List.length_map] at scaled
    rw [← scaled]

end RobotBlocks.Decimal
