import RobotBlocks.Proofs.Decimal
import RobotBlocks.Proofs.Code.Receivers
import RobotBlocks.Text.Hexadecimal

/-! Numbers in the class. The texts of number blocks and ports are judged by one set of rules for numbers and read by
another one. The rules of literals take all of these texts for the same numbers, but for whole numbers behind
zeros. -/
namespace RobotBlocks.Code

open RobotBlocks.Decimal RobotBlocks.Graph

variable {cs : List Char} {ds : List Nat} {c : Char} {n digit : Nat} {exponent : Int} {v : ℚ} {d : Decimal}

/-! Literals. -/

/-- Digits of a base, with single underscores between them or none. -/
inductive DigitPart (base : Nat) : List Char → List Nat → Prop where
  | last {c : Char} {digit : Nat} (reads : Text.hexDigit? c = some digit) (small : digit < base) :
      DigitPart base [c] [digit]
  | more {c : Char} {digit : Nat} {cs : List Char} {ds : List Nat} (reads : Text.hexDigit? c = some digit)
      (small : digit < base) (rest : DigitPart base cs ds) : DigitPart base (c :: cs) (digit :: ds)
  | parted {c : Char} {digit : Nat} {cs : List Char} {ds : List Nat} (reads : Text.hexDigit? c = some digit)
      (small : digit < base) (rest : DigitPart base cs ds) : DigitPart base (c :: '_' :: cs) (digit :: ds)

/-- Digits of a number, or nothing. -/
def DigitRun (cs : List Char) (ds : List Nat) : Prop := cs = [] ∧ ds = [] ∨ DigitPart 10 cs ds

/-- The base that the letter behind a zero stands for. -/
def radix? (letter : Char) : Option Nat :=
  if letter = 'b' ∨ letter = 'B' then some 2
  else if letter = 'o' ∨ letter = 'O' then some 8
  else if letter = 'x' ∨ letter = 'X' then some 16
  else none

/-- The literals of real numbers, and their values. A whole number has no zeros in front unless it is zero. -/
inductive Literal : List Char → ℚ → Prop where
  | integer {cs : List Char} {ds : List Nat} (part : DigitPart 10 cs ds)
      (unpadded : ds.head? ≠ some 0 ∨ ∀ digit ∈ ds, digit = 0) : Literal cs (number 10 ds)
  | based {letter : Char} {base : Nat} {gap cs : List Char} {ds : List Nat} (radix : radix? letter = some base)
      (parted : gap = [] ∨ gap = ['_']) (part : DigitPart base cs ds) :
      Literal ('0' :: letter :: (gap ++ cs)) (number base ds)
  | float {cs : List Char} {n : Nat} {exponent : Int} (spells : Spells DigitRun cs n exponent)
      (marked : ∃ c ∈ cs, c = '.' ∨ c = 'e' ∨ c = 'E') : Literal cs (n * 10 ^ exponent)

/-- A literal, with a sign in front of it or none, and the number for which it stands. -/
inductive Denotes : List Char → ℚ → Prop where
  | bare {cs : List Char} {v : ℚ} (literal : Literal cs v) : Denotes cs v
  | plus {cs : List Char} {v : ℚ} (literal : Literal cs v) : Denotes ('+' :: cs) v
  | minus {cs : List Char} {v : ℚ} (literal : Literal cs v) : Denotes ('-' :: cs) (-v)

/-- Digits alone, a zero in front and not zeros alone behind it. -/
def PaddedDigits (cs : List Char) : Prop :=
  ∃ rest, cs = '0' :: rest ∧ (∀ c ∈ rest, c.isDigit = true) ∧ ∃ c ∈ rest, c ≠ '0'

/-- A whole number behind zeros, with a sign in front or none. -/
def Padded (cs : List Char) : Prop :=
  PaddedDigits cs ∨ ∃ rest, (cs = '+' :: rest ∨ cs = '-' :: rest) ∧ PaddedDigits rest

/-! Digits. -/

theorem isDigit_iff : c.isDigit = true ↔ '0' ≤ c ∧ c ≤ '9' := by
  simp only [Char.isDigit, Bool.and_eq_true, decide_eq_true_eq, ge_iff_le]
  exact Iff.rfl

theorem isDigit_bounds (plain : c.isDigit = true) : 48 ≤ c.toNat ∧ c.toNat ≤ 57 := by
  simpa [Char.isDigit, UInt32.le_iff_toNat_le] using plain

theorem hexDigit?_of_isDigit (plain : c.isDigit = true) :
    Text.hexDigit? c = some (digitValue c) ∧ digitValue c < 10 := by
  have bounds := isDigit_bounds plain
  refine ⟨if_pos (isDigit_iff.mp plain), ?_⟩
  have zero : '0'.toNat = 48 := rfl
  unfold digitValue
  omega

theorem isDigit_of_hexDigit? (reads : Text.hexDigit? c = some digit) (small : digit < 10) :
    c.isDigit = true ∧ digit = digitValue c := by
  unfold Text.hexDigit? at reads
  split at reads
  · next plain =>
    cases reads
    exact ⟨isDigit_iff.mpr plain, rfl⟩
  · split at reads
    · cases reads
      omega
    · split at reads
      · cases reads
        omega
      · cases reads

theorem eq_zero_of_digitValue (plain : c.isDigit = true) (zero : digitValue c = 0) : c = '0' := by
  have bounds := isDigit_bounds plain
  have least : '0'.toNat = 48 := rfl
  unfold digitValue at zero
  exact Char.toNat_inj.mp (by omega)

theorem DigitPart.of_plainRun (some : cs ≠ []) (run : PlainRun cs ds) : DigitPart 10 cs ds := by
  obtain ⟨all, rfl⟩ := run
  induction cs with
  | nil => exact absurd rfl some
  | cons c cs ih =>
    obtain ⟨plain, all⟩ := List.forall_mem_cons.mp all
    obtain ⟨reads, small⟩ := hexDigit?_of_isDigit plain
    cases cs with
    | nil => exact .last reads small
    | cons next cs => exact .more reads small (ih (by simp) all)

theorem DigitPart.plainRun (part : DigitPart 10 cs ds) (unparted : '_' ∉ cs) : cs ≠ [] ∧ PlainRun cs ds := by
  induction part with
  | last reads small =>
    obtain ⟨plain, rfl⟩ := isDigit_of_hexDigit? reads small
    exact ⟨by simp, by simpa using plain, rfl⟩
  | more reads small rest ih =>
    obtain ⟨plain, rfl⟩ := isDigit_of_hexDigit? reads small
    obtain ⟨-, all, rfl⟩ := ih fun member => unparted (List.mem_cons_of_mem _ member)
    exact ⟨by simp, List.forall_mem_cons.mpr ⟨plain, all⟩, rfl⟩
  | parted reads small rest ih => simp at unparted

/-! Unsigned numbers. -/

theorem mem_of_spells (spells : Spells PlainRun cs n exponent) (member : c ∈ cs) :
    c.isDigit = true ∨ c ∈ ['.', 'e', 'E', '+', '-'] := by
  have inExponent : ∀ {cs : List Char} {exponent : Int}, Exponent PlainRun cs exponent → ∀ c ∈ cs,
      c.isDigit = true ∨ c = '+' ∨ c = '-' := by
    rintro _ _ (⟨-, all, -⟩ | ⟨-, all, -⟩ | ⟨-, all, -⟩) c member
    · exact .inl (all c member)
    · rcases List.mem_cons.mp member with rfl | member
      · exact .inr (.inl rfl)
      · exact .inl (all c member)
    · rcases List.mem_cons.mp member with rfl | member
      · exact .inr (.inr rfl)
      · exact .inl (all c member)
  have inMantissa : ∀ {cs : List Char} {ds fraction : List Nat}, Mantissa PlainRun cs ds fraction → ∀ c ∈ cs,
      c.isDigit = true ∨ c = '.' := by
    rintro _ _ _ (⟨-, all, -⟩ | ⟨-, ⟨all, -⟩, digits, -⟩) c member
    · exact .inl (all c member)
    · rcases List.mem_append.mp member with member | member
      · exact .inl (all c member)
      · rcases List.mem_cons.mp member with rfl | member
        · exact .inr rfl
        · exact .inl (digits c member)
  rcases spells with mantissa | ⟨mantissa, marked, raised⟩
  · rcases inMantissa mantissa c member with plain | rfl <;> simp [*]
  · rcases List.mem_append.mp member with member | member
    · rcases inMantissa mantissa c member with plain | rfl <;> simp [*]
    · rcases List.mem_cons.mp member with rfl | member
      · rcases marked with rfl | rfl <;> simp
      · rcases inExponent raised c member with plain | rfl | rfl <;> simp [*]

theorem mem_of_read (read : ofChars? cs = some d) (member : c ∈ cs) :
    c.isDigit = true ∨ c ∈ ['.', 'e', 'E', '+', '-'] := by
  unfold ofChars? at read
  split at read
  · rcases List.mem_cons.mp member with rfl | behind
    · simp
    · exact mem_of_spells (ofUnsigned?_eq_some_iff.mp read).2 behind
  · rcases List.mem_cons.mp member with rfl | behind
    · simp
    · exact mem_of_spells (ofUnsigned?_eq_some_iff.mp read).2 behind
  · exact mem_of_spells (ofUnsigned?_eq_some_iff.mp read).2 member

/-- The letter of a base is in no other number. -/
theorem not_mem_of_radix? {base : Nat} (radix : radix? c = some base) (spells : Spells PlainRun cs n exponent) :
    c ∉ cs := by
  have letter : c ∈ ['b', 'B', 'o', 'O', 'x', 'X'] := by
    unfold radix? at radix
    split at radix
    · next is => rcases is with rfl | rfl <;> simp
    · split at radix
      · next is => rcases is with rfl | rfl <;> simp
      · split at radix
        · next is => rcases is with rfl | rfl <;> simp
        · cases radix
  intro member
  simp only [List.mem_cons, List.not_mem_nil, or_false] at letter
  rcases letter with rfl | rfl | rfl | rfl | rfl | rfl <;> exact absurd (mem_of_spells spells member) (by decide)

theorem underscore_not_mem (spells : Spells PlainRun cs n exponent) : '_' ∉ cs := fun member =>
  absurd (mem_of_spells spells member) (by decide)

/-- What is read is one number. -/
theorem spells_unique {m : Nat} {power : Int} (one : Spells PlainRun cs n exponent)
    (other : Spells PlainRun cs m power) : n = m ∧ exponent = power := by
  have first : ofUnsigned? false cs = some ⟨false, n, exponent⟩ := ofUnsigned?_eq_some_iff.mpr ⟨rfl, one⟩
  have second : ofUnsigned? false cs = some ⟨false, m, power⟩ := ofUnsigned?_eq_some_iff.mpr ⟨rfl, other⟩
  cases first.symm.trans second
  exact ⟨rfl, rfl⟩

/-- Digits alone are a whole number. -/
theorem spells_digits (some : cs ≠ []) (run : PlainRun cs ds) : Spells PlainRun cs (number 10 ds) 0 := by
  simpa using Spells.plain (.whole some run)

theorem not_paddedDigits (all : ∀ c ∈ cs, c.isDigit = true)
    (unpadded : (cs.map digitValue).head? ≠ some 0 ∨ ∀ digit ∈ cs.map digitValue, digit = 0) : ¬ PaddedDigits cs := by
  rintro ⟨rest, rfl, -, c, member, other⟩
  rcases unpadded with first | zeros
  · exact first rfl
  · have later : c ∈ '0' :: rest := List.mem_cons_of_mem _ member
    exact other (eq_zero_of_digitValue (all c later) (zeros _ (List.mem_map_of_mem later)))

theorem unpadded_of_not_paddedDigits (all : ∀ c ∈ cs, c.isDigit = true) (plain : ¬ PaddedDigits cs) :
    (cs.map digitValue).head? ≠ some 0 ∨ ∀ digit ∈ cs.map digitValue, digit = 0 := by
  cases cs with
  | nil => exact .inr nofun
  | cons first rest =>
    obtain ⟨digit, later⟩ := List.forall_mem_cons.mp all
    by_cases zero : first = '0'
    · subst zero
      right
      intro value member
      obtain ⟨c, listed, rfl⟩ := List.mem_map.mp member
      have same : c = '0' := by
        by_contra other
        rcases List.mem_cons.mp listed with same | behind
        · exact other same
        · exact plain ⟨rest, rfl, later, c, behind, other⟩
      rw [same]
      rfl
    · left
      intro head
      exact zero (eq_zero_of_digitValue digit (Option.some.inj head))

/-- A number that is read is a literal of the same value, or a whole number behind zeros. -/
theorem literal_iff (spells : Spells PlainRun cs n exponent) :
    Literal cs v ↔ ¬ PaddedDigits cs ∧ v = n * 10 ^ exponent := by
  have unparted := underscore_not_mem spells
  constructor
  · rintro (⟨part, unpadded⟩ | ⟨radix, parted, part⟩ | ⟨spelled, c, member, marked⟩)
    · obtain ⟨some, all, rfl⟩ := part.plainRun unparted
      obtain ⟨rfl, rfl⟩ := spells_unique spells (spells_digits some (.of_digits all))
      exact ⟨not_paddedDigits all unpadded, by simp⟩
    · exact absurd (List.mem_cons_of_mem _ (List.mem_cons_self ..)) (not_mem_of_radix? radix spells)
    · have plain : Spells PlainRun cs _ _ := spelled.imp fun part ds within run => by
        rcases run with ⟨rfl, rfl⟩ | run
        · exact .of_digits nofun
        · exact (run.plainRun fun underscore => unparted (within underscore)).2
      obtain ⟨rfl, rfl⟩ := spells_unique spells plain
      refine ⟨?_, rfl⟩
      rintro ⟨rest, rfl, digits, -⟩
      have digit : c.isDigit = true := by
        rcases List.mem_cons.mp member with rfl | member
        · rfl
        · exact digits c member
      rcases marked with rfl | rfl | rfl <;> exact absurd digit (by decide)
  · rintro ⟨plain, rfl⟩
    have literal : (∃ c ∈ cs, c = '.' ∨ c = 'e' ∨ c = 'E') → Literal cs (n * 10 ^ exponent) := fun marked =>
      .float (spells.imp fun part ds _ run => by
        by_cases some : part = []
        · subst some
          exact .inl ⟨rfl, run.2⟩
        · exact .inr (.of_plainRun some run)) marked
    cases spells with
    | plain mantissa =>
      cases mantissa with
      | whole some run =>
        obtain ⟨all, rfl⟩ := run
        simpa using Literal.integer (.of_plainRun some (.of_digits all)) (unpadded_of_not_paddedDigits all plain)
      | pointed => exact literal ⟨'.', by simp, .inl rfl⟩
    | @scaled _ _ _ _ letter _ mantissa marked raised => exact literal ⟨letter, by simp, .inr marked⟩

/-! Numbers with a sign. -/

theorem DigitPart.first (part : DigitPart 10 (c :: cs) ds) : c.isDigit = true := by
  cases part with
  | last reads small | more reads small | parted reads small => exact (isDigit_of_hexDigit? reads small).1

/-- A literal starts with a digit or a point. -/
theorem Literal.first (literal : Literal (c :: cs) v) : c.isDigit = true ∨ c = '.' := by
  have mantissa : ∀ {front : List Char} {ds fraction : List Nat}, Mantissa DigitRun front ds fraction →
      ∃ first rest, front = first :: rest ∧ (first.isDigit = true ∨ first = '.') := by
    have leads : ∀ {front : List Char} {ds : List Nat}, front ≠ [] → DigitRun front ds →
        ∃ first rest, front = first :: rest ∧ first.isDigit = true := by
      rintro (_ | ⟨first, rest⟩) ds some run
      · exact absurd rfl some
      · rcases run with ⟨none, -⟩ | part
        · cases none
        · exact ⟨first, rest, rfl, part.first⟩
    rintro _ _ _ (⟨some, run⟩ | @⟨front, behind, _, _, _, run, -⟩)
    · obtain ⟨first, rest, is, digit⟩ := leads some run
      exact ⟨first, rest, is, .inl digit⟩
    · by_cases some : front = []
      · exact ⟨'.', behind, by simp [some], .inr rfl⟩
      · obtain ⟨first, rest, rfl, digit⟩ := leads some run
        exact ⟨first, _, rfl, .inl digit⟩
  generalize text : c :: cs = whole at literal
  cases literal with
  | integer part => exact .inl (DigitPart.first (text ▸ part))
  | based =>
    cases text
    exact .inl rfl
  | float spells =>
    cases spells with
    | plain front =>
      obtain ⟨first, rest, is, starts⟩ := mantissa front
      cases text.trans is
      exact starts
    | scaled front =>
      obtain ⟨first, rest, rfl, starts⟩ := mantissa front
      cases text
      exact starts

theorem denotes_minus {rest : List Char} : Denotes ('-' :: rest) v ↔ Literal rest (-v) := by
  constructor
  · rintro (literal | _ | literal)
    · exact absurd literal.first (by decide)
    · rwa [neg_neg]
  · intro literal
    rw [← neg_neg v]
    exact .minus literal

theorem denotes_plus {rest : List Char} : Denotes ('+' :: rest) v ↔ Literal rest v := by
  constructor
  · rintro (literal | literal | _)
    · exact absurd literal.first (by decide)
    · exact literal
  · exact .plus

/-- A number that is read stands for itself where it is written, or has zeros in front. -/
theorem denotes_iff (read : ofChars? cs = some d) : Denotes cs v ↔ ¬ Padded cs ∧ v = d.value := by
  unfold ofChars? at read
  split at read
  · next rest =>
    obtain ⟨sign, spells⟩ := ofUnsigned?_eq_some_iff.mp read
    have padded : Padded ('-' :: rest) ↔ PaddedDigits rest := by simp [Padded, PaddedDigits]
    rw [padded, denotes_minus, literal_iff spells, value, if_pos sign, neg_one_mul, neg_eq_iff_eq_neg]
  · next rest =>
    obtain ⟨sign, spells⟩ := ofUnsigned?_eq_some_iff.mp read
    have padded : Padded ('+' :: rest) ↔ PaddedDigits rest := by simp [Padded, PaddedDigits]
    rw [padded, denotes_plus, literal_iff spells, value, if_neg (by simp [sign]), one_mul]
  · next noMinus noPlus =>
    obtain ⟨sign, spells⟩ := ofUnsigned?_eq_some_iff.mp read
    have padded : Padded cs ↔ PaddedDigits cs := or_iff_left <| by
      rintro ⟨rest, rfl | rfl, -⟩
      · exact noPlus rest rfl
      · exact noMinus rest rfl
    have bare : Denotes cs v ↔ Literal cs v := by
      refine ⟨?_, .bare⟩
      rintro (literal | _ | _)
      · exact literal
      · exact (noPlus _ rfl).elim
      · exact (noMinus _ rfl).elim
    rw [padded, bare, literal_iff spells, value, if_neg (by simp [sign]), one_mul]

/-! Numbers of a module. -/

/-- The code of a number block with a text and the number that it is meant to be: the text of a finite number
without the blanks around it, and a zero for every other text. -/
inductive Shows : String → String → ℚ → Prop where
  | number {text : String} {d : Decimal} (read : ofString? (Text.trim text) = some d) (finite : d.isFinite = true) :
      Shows text (Text.trim text) d.value
  | rejected {text : String} (refused : numeral? text = none) : Shows text "0" 0

theorem Shows.denotes_iff {text numeral : String} {meant : ℚ} (shows : Shows text numeral meant) :
    Denotes numeral.toList v ↔ ¬ Padded numeral.toList ∧ v = meant := by
  cases shows with
  | number read => exact Code.denotes_iff read
  | rejected =>
    have read : ofChars? "0".toList = some ⟨false, 0, 0⟩ := rfl
    rw [Code.denotes_iff read]
    simp [value]

/-- Digits alone are read as a whole number. -/
theorem ofChars?_digits (some : cs ≠ []) (all : ∀ c ∈ cs, c.isDigit = true) :
    ofChars? cs = .some ⟨false, ofDigits cs, 0⟩ := by
  have spells := spells_digits some (.of_digits all)
  rw [← ofDigits_eq] at spells
  unfold ofChars?
  split
  · exact absurd (all '-' (List.mem_cons_self ..)) (by decide)
  · exact absurd (all '+' (List.mem_cons_self ..)) (by decide)
  · exact ofUnsigned?_eq_some_iff.mpr ⟨rfl, spells⟩

theorem denotes_port {port : String} (some : port ≠ "") (digits : ∀ c ∈ port.toList, c.isDigit = true) :
    Denotes port.toList v ↔ ¬ Padded port.toList ∧ v = ofDigits port.toList := by
  rw [denotes_iff (ofChars?_digits (by simpa using some) digits)]
  simp [value]

variable {g : Graph} {id : BlockId} {block : Block} {type : ModuleType} {options : Options}

theorem numeral?_eq_some {text numeral : String} : numeral? text = some numeral ↔
    numeral = Text.trim text ∧ ∃ d, ofString? (Text.trim text) = some d ∧ d.isFinite = true := by
  simp only [numeral?, Option.ite_none_right_eq_some, Option.any_eq_true, Option.some.injEq]
  rw [and_comm, eq_comm (a := numeral)]

theorem expression_number (own : Declarations) (scope : Scope) (found : g.block? id = some block)
    (kind : block.kind = .number) :
    ∃ numeral meant, Shows (block.fieldD Field.num) numeral meant ∧
      (expression g own scope id).1 = .number numeral := by
  have leaf : Leaf id block (expression g own scope id) := expression_leaf found (by rw [kind]; decide)
  generalize expression g own scope id = written at leaf
  cases leaf with
  | number _ read =>
    obtain ⟨rfl, d, is, finite⟩ := numeral?_eq_some.mp read
    exact ⟨_, _, .number is finite, rfl⟩
  | refused _ read => exact ⟨_, _, .rejected read, rfl⟩
  | none other =>
    rw [kind] at other
    cases other
  | text other | bool other | get other => cases kind.symm.trans other

/-- Every number block that is written, and every port of digits, is a literal of the number that it is meant to
be, unless it is a whole number with zeros in front; that is no literal. -/
theorem numerals_denote_iff (reached : g.Reachable) (supported : type ≠ .unknown) (valid : options.isValid = true)
    (name : String) (scope : Scope) :
    ∃ generated imports c, generate type name g scope options = .ok generated ∧
      generated.code = fileText options imports c ∧
      (∀ id block, Emitted g (.collect g) scope id → g.block? id = some block → block.kind = .number →
        ∃ numeral meant, Shows (block.fieldD Field.num) numeral meant ∧
          (∃ method ∈ c.methods, ∃ line : Expr, line.code ∈ method.body ∧ (Expr.number numeral).Within line) ∧
          ∀ v, Denotes numeral.toList v ↔ ¬ Padded numeral.toList ∧ v = meant) ∧
      (type.exports = true → ∀ component ∈ (Declarations.collect g).components,
        (Text.trim component.className).isEmpty = false → ∀ port, component.port = some port → port ≠ "" →
          (∀ c ∈ port.toList, c.isDigit = true) →
            (∃ method ∈ c.methods, method.name = "define_hardware" ∧
              "self." ++ Text.identifier component.name ++ " = " ++ (component.className ++ "(" ++ port ++ ")")
                ∈ method.body) ∧
            ∀ v, Denotes port.toList v ↔ ¬ Padded port.toList ∧ v = ofDigits port.toList) := by
  have sound := reached.sound
  obtain ⟨generated, made⟩ : ∃ generated, generate type name g scope options = .ok generated :=
    (generate_ok_iff sound scope).mpr ⟨valid, supported⟩
  obtain ⟨outline, collected, is⟩ := generate_eq sound made
  have own : outline.declarations = .collect g := Outline.declarations_eq collected
  refine ⟨generated, _, (written g scope outline).1, made, congrArg Generated.code is, ?_, ?_⟩
  · intro id block emitted found kind
    obtain ⟨numeral, meant, shows, stands⟩ := expression_number (.collect g) scope found kind
    refine ⟨numeral, meant, shows, ?_, fun v => shows.denotes_iff⟩
    rw [← own] at emitted stands
    obtain ⟨line, -⟩ := emitted.in_class sound collected
    rwa [stands] at line
  · intro exports component declared built port plugged some digits
    refine ⟨?_, fun v => denotes_port some digits⟩
    have code : component.port.elim "" portCode = port := by
      rw [plugged, Option.elim_some, portCode, if_pos]
      simpa [some] using digits
    have line := hardware_line scope collected exports declared built
    rwa [code] at line

/-- A call passes the number `007`, and the hardware has a motor at the port `08`. Both stand in the class, and
neither is a literal. -/
theorem numerals_denote_iff_padded :
    let call : CallState := { name := "turn", args := [⟨"angle", none⟩] }
    let g := [Mutation.add .componentHolder .none, .add .component (.component { className := "Motor" }),
      .setField ⟨1⟩ Field.name "left", .setField ⟨1⟩ Field.port "08", .connectSocket ⟨0⟩ Socket.components ⟨1⟩,
      .add .methodDef (.method {}), .add .methodCall (.call call), .add .number .none,
      .setField ⟨4⟩ Field.num "007", .connectSocket ⟨2⟩ Socket.stack ⟨3⟩,
      .connectSocket ⟨3⟩ (Socket.arg 0) ⟨4⟩].foldl Graph.mutate Graph.empty
    ∃ generated imports c, generate .mechanism "Arm" g {} {} = .ok generated ∧
      generated.code = fileText {} imports c ∧
      (∃ method ∈ c.methods, ∃ line : Expr, line.code ∈ method.body ∧ (Expr.number "007").Within line) ∧
      (∃ method ∈ c.methods, method.name = "define_hardware" ∧ "self.left = Motor(08)" ∈ method.body) ∧
      ∀ v, ¬ Denotes "007".toList v ∧ ¬ Denotes "08".toList v := by
  intro call g
  have reached : g.Reachable := Reachable.empty.foldl_mutate _
  have shows : (g.topBlocks = [⟨0⟩, ⟨2⟩] ∧ g.statementStack ⟨2⟩ Socket.stack = [⟨3⟩] ∧
      g.plugged? ⟨3⟩ (Socket.arg 0) = some ⟨4⟩) ∧
      (g.block? ⟨2⟩).map (·.kind) = some .methodDef ∧
      (g.block? ⟨3⟩).map (fun block => (block.kind, block.extra)) = some (.methodCall, .call call) ∧
      (g.block? ⟨4⟩).map (fun block => (block.kind, block.fieldD Field.num)) = some (.number, "007") ∧
      ⟨⟨1⟩, "left", .component, "Motor", "", some "08"⟩ ∈ (Declarations.collect g).components ∧
      (resolveCall (.collect g) {} ⟨3⟩ call).2.1 = 1 := by
    decide +kernel
  obtain ⟨⟨top, stack, plugged⟩, definition, calls, holds, declared, taken⟩ := shows
  obtain ⟨head, headFound, headKind⟩ := Option.map_eq_some_iff.mp definition
  obtain ⟨caller, callerFound, callerIs⟩ := Option.map_eq_some_iff.mp calls
  obtain ⟨callerKind, carried⟩ := Prod.mk.inj callerIs
  obtain ⟨value, valueFound, valueIs⟩ := Option.map_eq_some_iff.mp holds
  obtain ⟨valueKind, text⟩ := Prod.mk.inj valueIs
  have stated : Emitted g (.collect g) {} ⟨3⟩ :=
    .stated (.definition (by rw [top]; simp) headFound headKind) (by rw [stack]; exact List.mem_singleton_self _)
      callerFound (by rw [callerKind]; rfl)
  have emitted : Emitted g (.collect g) {} ⟨4⟩ :=
    .passed stated callerFound callerKind (by rw [carried]; rfl) (by rw [taken]; exact Nat.zero_lt_one)
      (by decide) plugged
  obtain ⟨generated, imports, c, made, code, numbers, ports⟩ :=
    numerals_denote_iff reached (by decide : ModuleType.mechanism ≠ .unknown) (by decide : Options.isValid {} = true)
      "Arm" {}
  obtain ⟨numeral, meant, shown, line, denotes⟩ := numbers ⟨4⟩ value emitted valueFound valueKind
  have digits : ∀ c ∈ "08".toList, c.isDigit = true := List.all_eq_true.mp (by decide)
  obtain ⟨built, port⟩ := ports rfl _ declared (by decide +kernel) "08" rfl (by decide) digits
  have same : numeral = "007" := by
    rw [text] at shown
    cases shown with
    | number => decide +kernel
    | rejected refused => exact absurd refused (by decide +kernel)
  subst same
  have padded : PaddedDigits "007".toList ∧ PaddedDigits "08".toList :=
    ⟨⟨"07".toList, rfl, List.all_eq_true.mp (by decide), '7', by decide, by decide⟩,
      "8".toList, rfl, List.all_eq_true.mp (by decide), '8', by decide, by decide⟩
  exact ⟨generated, imports, c, made, code, line, built, fun v =>
    ⟨fun held => ((denotes v).mp held).1 (.inl padded.1), fun held => ((port v).mp held).1 (.inl padded.2)⟩⟩

end RobotBlocks.Code
