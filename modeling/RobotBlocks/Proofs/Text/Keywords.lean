import RobotBlocks.Proofs.Text.Identifiers

/-! Identifiers and keywords. What is made of a display name always has the shape of an identifier. It need not be
free, though: a name that is a keyword is kept as it is, and a class name capitalizes some words into keywords. -/
namespace RobotBlocks.Text

/-- The words that no class, method, parameter or attribute can have for its name. -/
def keywords : List String :=
  ["False", "None", "True", "and", "as", "assert", "async", "await", "break", "class", "continue", "def", "del",
    "elif", "else", "except", "finally", "for", "from", "global", "if", "import", "in", "is", "lambda", "nonlocal",
    "not", "or", "pass", "raise", "return", "try", "while", "with", "yield"]

variable {name : String} {cs word : List Char} {c head small : Char}

/-! Identifiers. -/

theorem identifier_mem_keywords_iff : identifier name ∈ keywords ↔ trim name ∈ keywords := by
  have letters : ∀ word ∈ keywords, word.toList.all Char.isAlpha = true ∧ word.toList ≠ [] := by decide
  have one : ∀ word ∈ keywords, identifier name = word ↔ trim name = word := fun word member =>
    identifier_eq_iff (List.all_eq_true.mp (letters word member).1) (letters word member).2
  exact ⟨fun member => (one _ member).mp rfl ▸ member, fun member => (one _ member).mpr rfl ▸ member⟩

/-! Capital letters. -/

theorem isLower_iff : c.isLower = true ↔ 97 ≤ c.toNat ∧ c.toNat ≤ 122 :=
  Bool.and_eq_true_iff.trans (and_congr decide_eq_true_iff decide_eq_true_iff)

theorem isUpper_iff : c.isUpper = true ↔ 65 ≤ c.toNat ∧ c.toNat ≤ 90 :=
  decide_eq_true_iff

/-- The capital of a small letter stands 32 places before it; all other characters are their own capitals. -/
theorem toUpper_cases (c : Char) :
    c.isLower = true ∧ c.toUpper.toNat + 32 = c.toNat ∨ c.isLower = false ∧ c.toUpper = c := by
  by_cases lower : c.isLower = true
  · left
    obtain ⟨least, most⟩ := isLower_iff.mp lower
    have shifted : c.toUpper = ⟨c.val + ('A'.val - 'a'.val), _⟩ := dif_pos ⟨least, most⟩
    -- The difference is added modulo the size of a word.
    have shift : ('A'.val - 'a'.val).toNat = 4294967264 := by decide
    refine ⟨lower, ?_⟩
    rw [shifted, ← Char.toNat_val, UInt32.toNat_add, shift, Char.toNat_val]
    omega
  · right
    exact ⟨Bool.eq_false_iff.mpr lower, dif_neg fun letter => lower (isLower_iff.mpr letter)⟩

theorem isLower_toUpper (c : Char) : c.toUpper.isLower = false := by
  obtain ⟨lower, code⟩ | ⟨other, same⟩ := toUpper_cases c
  · have codes := isLower_iff.mp lower
    rw [Bool.eq_false_iff, Ne, isLower_iff]
    omega
  · rwa [same]

theorem isAlpha_toUpper (lower : c.isLower = true) : c.toUpper.isAlpha = true := by
  obtain ⟨-, code⟩ | ⟨other, -⟩ := toUpper_cases c
  · have codes := isLower_iff.mp lower
    exact Bool.or_eq_true_iff.mpr (.inl (isUpper_iff.mpr (by omega)))
  · rw [lower] at other
    cases other

theorem isAlphanum_toUpper (letter : c.isAlphanum = true) : c.toUpper.isAlphanum = true := by
  obtain ⟨lower, -⟩ | ⟨-, same⟩ := toUpper_cases c
  · rw [Char.isAlphanum, isAlpha_toUpper lower, Bool.true_or]
  · rwa [same]

/-- A capital letter is the capital of its small letter and of itself alone. -/
theorem toUpper_eq_toUpper_iff (lower : small.isLower = true) :
    c.toUpper = small.toUpper ↔ c = small.toUpper ∨ c = small := by
  constructor
  · intro same
    obtain ⟨-, code⟩ | ⟨-, is⟩ := toUpper_cases c
    · obtain ⟨-, code'⟩ | ⟨other, -⟩ := toUpper_cases small
      · exact .inr (Char.toNat_inj.mp (by rw [← code, ← code', same]))
      · rw [lower] at other
        cases other
    · exact .inl (is.symm.trans same)
  · rintro (rfl | rfl)
    · obtain ⟨low, -⟩ | ⟨-, is⟩ := toUpper_cases small.toUpper
      · rw [isLower_toUpper] at low
        cases low
      · exact is
    · rfl

/-! Class names. -/

theorem isAlphanum_of_mem_joinWords {start : Bool} : ∀ c ∈ joinWords start cs, c.isAlphanum = true := by
  induction cs generalizing start with
  | nil => nofun
  | cons first rest ih =>
    unfold joinWords
    split
    · next letter =>
      refine List.forall_mem_cons.mpr ⟨?_, ih⟩
      split
      · exact isAlphanum_toUpper letter
      · exact letter
    · exact ih

theorem isIdentifier_className (name : String) : IsIdentifier (className name) := by
  have unnamed : ∀ c ∈ "Module".toList, isWordChar c = true :=
    List.all_eq_true.mp (by decide : "Module".toList.all isWordChar = true)
  unfold className
  split
  · exact isIdentifier_guardStart unnamed
  · refine isIdentifier_guardStart fun c member => ?_
    rw [isWordChar, isAlphanum_of_mem_joinWords c member, Bool.true_or]

/-- The first letter of a word is a capital one. -/
theorem not_isLower_of_joinWords {rest : List Char} (joined : joinWords true cs = head :: rest) :
    head.isLower = false := by
  induction cs with
  | nil => cases joined
  | cons first others ih =>
    unfold joinWords at joined
    split at joined
    · cases joined
      exact isLower_toUpper first
    · exact ih joined

theorem not_isLower_className (name : String) :
    ∃ first rest, (className name).toList = first :: rest ∧ first.isLower = false := by
  unfold className
  split
  · exact ⟨'M', "odule".toList, by decide, by decide⟩
  · cases joined : joinWords true name.toList with
    | nil => exact ⟨'_', [], by rw [String.toList_ofList]; rfl, by decide⟩
    | cons first rest =>
      rw [String.toList_ofList, guardStart]
      split
      · exact ⟨'_', _, rfl, by decide⟩
      · exact ⟨first, rest, rfl, not_isLower_of_joinWords joined⟩

theorem joinWords_eq_nil_iff {start : Bool} : joinWords start cs = [] ↔ ∀ c ∈ cs, c.isAlphanum = false := by
  induction cs generalizing start with
  | nil => simp [joinWords]
  | cons first rest ih =>
    unfold joinWords
    split
    · next letter => simp [letter]
    · next other => simp [other, ih]

theorem isAlphanum_of_isLower (lower : c.isLower = true) : c.isAlphanum = true :=
  Bool.or_eq_true_iff.mpr (.inl (Bool.or_eq_true_iff.mpr (.inr lower)))

/-- Small letters behind a first one go on with the same word, and no other word follows. -/
theorem joinWords_false_eq_iff (lower : ∀ c ∈ word, c.isLower = true) : joinWords false cs = word ↔
    ∃ after, cs = word ++ after ∧ ∀ c ∈ after, c.isAlphanum = false := by
  induction cs generalizing word with
  | nil => cases word <;> simp [joinWords]
  | cons first rest ih =>
    unfold joinWords
    split
    · next letter =>
      cases word with
      | nil =>
        refine iff_of_false (by simp) ?_
        rintro ⟨after, rfl, breaks⟩
        simp [letter] at breaks
      | cons c word =>
        simp only [Bool.false_eq_true, if_false, List.cons.injEq, ih (List.forall_mem_cons.mp lower).2,
          List.cons_append, and_assoc, exists_and_left]
    · next other =>
      cases word with
      | nil => simp [joinWords_eq_nil_iff, other]
      | cons c word =>
        have small := (List.forall_mem_cons.mp lower).1
        refine iff_of_false (fun joined => ?_) ?_
        · rw [not_isLower_of_joinWords joined] at small
          cases small
        · rintro ⟨after, same, -⟩
          cases same
          exact other (isAlphanum_of_isLower small)

theorem joinWords_true_eq_iff (lower : ∀ c ∈ word, c.isLower = true) : joinWords true cs = head :: word ↔
    ∃ before first after, cs = before ++ first :: (word ++ after) ∧ (∀ c ∈ before, c.isAlphanum = false) ∧
      first.isAlphanum = true ∧ first.toUpper = head ∧ ∀ c ∈ after, c.isAlphanum = false := by
  induction cs with
  | nil => simp [joinWords]
  | cons c rest ih =>
    unfold joinWords
    split
    · next letter =>
      rw [if_pos rfl, List.cons.injEq, joinWords_false_eq_iff lower]
      constructor
      · rintro ⟨capital, after, rfl, breaks⟩
        exact ⟨[], c, after, rfl, nofun, letter, capital, breaks⟩
      · rintro ⟨before, first, after, same, silent, -, capital, breaks⟩
        cases before with
        | nil =>
          cases same
          exact ⟨capital, after, rfl, breaks⟩
        | cons other before =>
          cases same
          simp [letter] at silent
    · next other =>
      rw [ih]
      constructor
      · rintro ⟨before, first, after, rfl, silent, found⟩
        exact ⟨c :: before, first, after, rfl,
          List.forall_mem_cons.mpr ⟨Bool.eq_false_iff.mpr other, silent⟩, found⟩
      · rintro ⟨before, first, after, same, silent, letter, found⟩
        cases before with
        | nil =>
          cases same
          exact absurd letter other
        | cons _ before =>
          cases same
          exact ⟨before, first, after, rfl, (List.forall_mem_cons.mp silent).2, letter, found⟩

/-- The letters and digits of a name are those of one word, which stand together. -/
def SoleWord (name word : String) : Prop :=
  ∃ before after : List Char, name.toList = before ++ word.toList ++ after ∧
    ∀ c ∈ before ++ after, c.isAlphanum = false

/-- A capital letter and small ones are the class name of this word alone, with or without the capital. -/
theorem className_eq_iff (begins : small.isLower = true) (capital : small.toUpper = head)
    (lower : ∀ c ∈ word, c.isLower = true) (other : String.ofList (head :: word) ≠ "Module") :
    className name = String.ofList (head :: word) ↔
      SoleWord name (String.ofList (head :: word)) ∨ SoleWord name (String.ofList (small :: word)) := by
  have letter : head.isAlpha = true := capital ▸ isAlpha_toUpper begins
  have joined : className name = String.ofList (head :: word) ↔ joinWords true name.toList = head :: word := by
    unfold className
    split
    · next none => exact iff_of_false (Ne.symm other) (by simp [none])
    · cases joinWords true name.toList with
      | nil =>
        refine iff_of_false (fun same => ?_) (by simp)
        cases String.ofList_inj.mp same
        exact absurd letter (by decide)
      | cons first rest =>
        rw [String.ofList_inj, guardStart]
        split
        · next digit =>
          refine iff_of_false (fun same => ?_) (fun same => ?_)
          · cases same
            exact absurd letter (by decide)
          · cases same
            rw [not_isDigit_of_isAlpha letter] at digit
            cases digit
        · rfl
  have spelled : ∀ first : Char, SoleWord name (String.ofList (first :: word)) ↔ ∃ before after,
      name.toList = before ++ first :: (word ++ after) ∧ (∀ c ∈ before, c.isAlphanum = false) ∧
        ∀ c ∈ after, c.isAlphanum = false := by
    simp [SoleWord, or_imp, forall_and]
  rw [joined, joinWords_true_eq_iff lower, spelled, spelled]
  subst capital
  constructor
  · rintro ⟨before, first, after, is, silent, -, capital, breaks⟩
    rcases (toUpper_eq_toUpper_iff begins).mp capital with rfl | rfl
    · exact .inl ⟨before, after, is, silent, breaks⟩
    · exact .inr ⟨before, after, is, silent, breaks⟩
  · rintro (⟨before, after, is, silent, breaks⟩ | ⟨before, after, is, silent, breaks⟩)
    · exact ⟨before, _, after, is, silent, isAlphanum_toUpper (isAlphanum_of_isLower begins),
        (toUpper_eq_toUpper_iff begins).mpr (.inl rfl), breaks⟩
    · exact ⟨before, small, after, is, silent, isAlphanum_of_isLower begins, rfl, breaks⟩

/-- Three keywords have a capital letter. A class name is one of them for these words alone, in either case of the
first letter. -/
theorem className_mem_keywords_iff : className name ∈ keywords ↔
    ∃ word ∈ ["False", "false", "None", "none", "True", "true"], SoleWord name word := by
  have capitals : ∀ word ∈ keywords, word.toList.head?.any Char.isLower = false →
      word ∈ ["False", "None", "True"] := by decide
  have three : className name ∈ keywords ↔
      className name = "False" ∨ className name = "None" ∨ className name = "True" := by
    constructor
    · intro member
      obtain ⟨first, rest, is, big⟩ := not_isLower_className name
      simpa using capitals _ member (by rw [is]; exact big)
    · rintro (is | is | is) <;> rw [is] <;> decide
  have small : ∀ {letters : List Char}, letters.all Char.isLower = true → ∀ c ∈ letters, c.isLower = true :=
    List.all_eq_true.mp
  have no : className name = "False" ↔ SoleWord name "False" ∨ SoleWord name "false" :=
    @className_eq_iff name "alse".toList 'F' 'f' (by decide) (by decide) (small (by decide)) (by decide)
  have nothing : className name = "None" ↔ SoleWord name "None" ∨ SoleWord name "none" :=
    @className_eq_iff name "one".toList 'N' 'n' (by decide) (by decide) (small (by decide)) (by decide)
  have yes : className name = "True" ↔ SoleWord name "True" ∨ SoleWord name "true" :=
    @className_eq_iff name "rue".toList 'T' 't' (by decide) (by decide) (small (by decide)) (by decide)
  simp only [three, no, nothing, yes, List.mem_cons, List.not_mem_nil, or_false, exists_eq_or_imp,
    exists_eq_left, or_assoc]

/-- What is made of a name has the shape of an identifier, and the identifier of an identifier is itself. The
identifier is a keyword exactly if the trimmed name is one, and the class name exactly if its letters and digits
spell one of three words. -/
theorem names_free_iff (name : String) :
    IsIdentifier (identifier name) ∧ IsIdentifier (className name) ∧
      identifier (identifier name) = identifier name ∧
      (identifier name ∈ keywords ↔ trim name ∈ keywords) ∧
      (className name ∈ keywords ↔
        ∃ word ∈ ["False", "false", "None", "none", "True", "true"], SoleWord name word) :=
  ⟨isIdentifier_identifier name, isIdentifier_className name, identifier_identifier name,
    identifier_mem_keywords_iff, className_mem_keywords_iff⟩

/-- A method that is called `class`, and a module that is called `none`. -/
theorem names_free_iff_class : identifier "class" ∈ keywords ∧ className "none" ∈ keywords :=
  ⟨(names_free_iff "class").2.2.2.1.mpr (by decide +kernel),
    (names_free_iff "none").2.2.2.2.mpr ⟨"none", by decide, [], [], by simp, nofun⟩⟩

end RobotBlocks.Text
