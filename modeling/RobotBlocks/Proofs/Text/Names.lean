import Mathlib.Data.List.DropRight
import Mathlib.Data.List.Perm.Subperm
import RobotBlocks.Proofs.Block.Derived
import RobotBlocks.Text.Identifier
import RobotBlocks.Text.Unused

/-! Names that are made. A name that is taken gets a number, and the search for the number ends on a name that
is free. What was trimmed stays as it is when it is trimmed again, with a number behind it as well. And names that
are different may have the same identifier, but only one name has a word of letters for its identifier. -/
namespace RobotBlocks.Text

variable {candidate : Nat → String} {used : List String} {tries start : Nat}

/-- Where the search ends on a name in use, all candidates that it passed are in use. -/
theorem mem_of_firstUnused {n : Nat} (taken : firstUnused candidate used tries start ∈ used) (later : start ≤ n)
    (within : n ≤ start + tries) : candidate n ∈ used := by
  induction tries generalizing start with
  | zero =>
    have only : n = start := by omega
    subst only
    exact taken
  | succ tries ih =>
    unfold firstUnused at taken
    split at taken
    · next passed =>
      rcases Nat.eq_or_lt_of_le later with rfl | later
      · exact List.contains_iff_mem.mp passed
      · exact ih taken later (by omega)
    · next free => exact absurd (List.contains_iff_mem.mpr taken) free

/-- One more candidate than there are names in use is enough to find a free one. -/
theorem firstUnused_not_mem (distinct : Function.Injective candidate) (enough : used.length ≤ tries) :
    firstUnused candidate used tries start ∉ used := by
  intro taken
  have subset : (List.range' start (tries + 1)).map candidate ⊆ used := by
    intro name member
    obtain ⟨n, bounds, rfl⟩ := List.mem_map.mp member
    obtain ⟨later, within⟩ := List.mem_range'_1.mp bounds
    exact mem_of_firstUnused taken later (by omega)
  have numbers : ((List.range' start (tries + 1)).map candidate).Nodup :=
    (List.nodup_range' 1).map distinct
  have bound := (numbers.subperm subset).length_le
  simp only [List.length_map, List.length_range'] at bound
  omega

/-- The search passes over names in use alone. -/
theorem firstUnused_least : ∃ n, start ≤ n ∧ firstUnused candidate used tries start = candidate n ∧
    ∀ m, start ≤ m → m < n → candidate m ∈ used := by
  induction tries generalizing start with
  | zero => exact ⟨start, Nat.le_refl start, rfl, fun m later before => by omega⟩
  | succ tries ih =>
    unfold firstUnused
    split
    · next taken =>
      obtain ⟨n, later, same, passed⟩ := @ih (start + 1)
      refine ⟨n, by omega, same, fun m later before => ?_⟩
      rcases Nat.eq_or_lt_of_le later with rfl | further
      · exact List.contains_iff_mem.mp taken
      · exact passed m further before
    · exact ⟨start, Nat.le_refl start, rfl, fun m later before => by omega⟩

theorem firstUnused_eq_candidate : ∃ n, firstUnused candidate used tries start = candidate n := by
  obtain ⟨n, -, same, -⟩ := @firstUnused_least candidate used tries start
  exact ⟨n, same⟩

/-- A name that is free, or else a stem with a number, is free. -/
theorem numbered_not_mem (stem base : String) (used : List String) :
    (if used.contains base then firstUnused (fun n => stem ++ toString n) used used.length 2 else base) ∉ used := by
  split
  · refine firstUnused_not_mem (fun a b same => ?_) (Nat.le_refl _)
    exact toString_injective ((String.append_right_inj stem).mp same)
  · next free => exact fun member => free (List.contains_iff_mem.mpr member)

/-! Trimming. -/

theorem dropWhile_trimChars (cs : List Char) : (trimChars cs).dropWhile isBlank = trimChars cs := by
  have first : trimChars cs <+: cs.dropWhile isBlank := List.rdropWhile_prefix isBlank (cs.dropWhile isBlank)
  refine List.dropWhile_eq_self_iff.mpr fun some blank => ?_
  have head : (trimChars cs)[0] = (cs.dropWhile isBlank).get ⟨0, some.trans_le first.length_le⟩ := first.getElem some
  exact List.dropWhile_get_zero_not isBlank cs (some.trans_le first.length_le) (head ▸ blank)

/-- Nothing is left to cut off what was trimmed. -/
theorem trimChars_trimChars (cs : List Char) : trimChars (trimChars cs) = trimChars cs :=
  calc trimChars (trimChars cs)
      = List.rdropWhile isBlank ((trimChars cs).dropWhile isBlank) := rfl
    _ = List.rdropWhile isBlank (trimChars cs) := by rw [dropWhile_trimChars]
    _ = trimChars cs := List.rdropWhile_idempotent isBlank (cs.dropWhile isBlank)

theorem trim_trim (s : String) : trim (trim s) = trim s := by
  simp only [trim, String.toList_ofList, trimChars_trimChars]

theorem not_isBlank_of_isDigit {c : Char} (digit : c.isDigit = true) : isBlank c = false := by
  rw [Bool.eq_false_iff]
  intro blank
  have none : blanks.all (!·.isDigit) = true := by decide
  simpa [digit] using List.all_eq_true.mp none c (List.contains_iff_mem.mp blank)

/-- A number behind a name ends it. -/
theorem trim_append_toString {s : String} (named : trim s ≠ "") (n : Nat) :
    trim (trim s ++ toString n) = trim s ++ toString n := by
  have start : trimChars s.toList ≠ [] := fun empty => named (by rw [trim, empty])
  have digits : toString n = String.ofList (Nat.toDigits 10 n) := Nat.toString_eq_ofList_toDigits
  have last : isBlank ((Nat.toDigits 10 n).getLast Nat.toDigits_ne_nil) = false :=
    not_isBlank_of_isDigit (Nat.isDigit_of_mem_toDigits (by decide) (by decide) (List.getLast_mem _))
  have front : (trimChars s.toList ++ Nat.toDigits 10 n).dropWhile isBlank
      = trimChars s.toList ++ Nat.toDigits 10 n := by
    rw [List.dropWhile_append, dropWhile_trimChars, if_neg (by simpa using start)]
  have whole : trimChars (trimChars s.toList ++ Nat.toDigits 10 n) = trimChars s.toList ++ Nat.toDigits 10 n := by
    change List.rdropWhile isBlank (List.dropWhile isBlank _) = _
    rw [front, List.rdropWhile_eq_self_iff]
    intro some
    rw [List.getLast_append_of_ne_nil some Nat.toDigits_ne_nil, last]
    exact Bool.false_ne_true
  simp only [trim, digits, String.toList_append, String.toList_ofList, whole, String.ofList_append]

/-! Identifiers. -/

theorem not_isDigit_of_isAlpha {c : Char} (letter : c.isAlpha = true) : c.isDigit = false := by
  refine Bool.eq_false_iff.mpr fun digit => ?_
  have few : c.val.toNat ≤ 57 := of_decide_eq_true (Bool.and_eq_true_iff.mp digit).2
  rcases Bool.or_eq_true_iff.mp letter with upper | lower
  · have many : 65 ≤ c.val.toNat := (of_decide_eq_true upper).1
    omega
  · have many : 97 ≤ c.val.toNat := of_decide_eq_true (Bool.and_eq_true_iff.mp lower).1
    omega

/-- A letter stands for itself in an identifier, and no other character stands for it. -/
theorem wordChar_eq_iff {c d : Char} (letter : d.isAlpha = true) :
    (if isWordChar c then c else '_') = d ↔ c = d := by
  split
  · rfl
  · next other =>
    refine ⟨fun blank => absurd (blank ▸ letter) (by decide), fun same => absurd ?_ other⟩
    simp [isWordChar, Char.isAlphanum, same, letter]

theorem map_wordChar_eq_iff {cs word : List Char} (letters : ∀ c ∈ word, c.isAlpha = true) :
    (cs.map fun c => if isWordChar c then c else '_') = word ↔ cs = word := by
  induction cs generalizing word with
  | nil => rfl
  | cons c cs ih =>
    cases word with
    | nil => simp
    | cons d word =>
      obtain ⟨letter, letters⟩ := List.forall_mem_cons.mp letters
      rw [List.map_cons, List.cons.injEq, List.cons.injEq, wordChar_eq_iff letter, ih letters]

/-- A name has a word of letters alone for its identifier only if it is this word, the blanks around it apart. -/
theorem identifier_eq_iff {name word : String} (letters : ∀ c ∈ word.toList, c.isAlpha = true)
    (some : word.toList ≠ []) : identifier name = word ↔ trim name = word := by
  rw [identifier, identifierChars, trim, ← String.toList_inj, ← String.toList_inj, String.toList_ofList,
    String.toList_ofList]
  refine Iff.trans ?_ (map_wordChar_eq_iff letters)
  generalize (trimChars name.toList).map (fun c => if isWordChar c then c else '_') = cs
  generalize word.toList = word at letters some
  -- An underscore at the start is none of the letters, and a digit at the start is none either.
  have unguarded : ∀ {rest}, '_' :: rest ≠ word := by
    rintro rest rfl
    exact absurd (letters '_' (List.mem_cons_self ..)) (by decide)
  cases cs with
  | nil => exact iff_of_false unguarded some.symm
  | cons c cs =>
    rw [guardStart]
    split
    · next digit =>
      refine iff_of_false unguarded ?_
      rintro rfl
      simp [not_isDigit_of_isAlpha (letters c (List.mem_cons_self ..))] at digit
    · rfl

/-- Behind `self`, the identifiers of different names are different unless a name is `self` or two names have the
same one. -/
theorem identifiers_nodup_iff {names : List String} (distinct : names.Nodup)
    (trimmed : ∀ name ∈ names, trim name = name) : ("self" :: names.map identifier).Nodup ↔
      "self" ∉ names ∧ ∀ one ∈ names, ∀ other ∈ names, identifier one = identifier other → one = other := by
  have letters : ∀ c ∈ "self".toList, c.isAlpha = true :=
    List.all_eq_true.mp (by decide : "self".toList.all Char.isAlpha = true)
  have own : "self" ∈ names.map identifier ↔ "self" ∈ names := by
    rw [List.mem_map]
    constructor
    · rintro ⟨name, member, same⟩
      rw [identifier_eq_iff letters (by decide), trimmed name member] at same
      exact same ▸ member
    · intro member
      exact ⟨"self", member, (identifier_eq_iff letters (by decide)).mpr (trimmed "self" member)⟩
  rw [List.nodup_cons, own, List.nodup_map_iff_inj_on distinct]

end RobotBlocks.Text
