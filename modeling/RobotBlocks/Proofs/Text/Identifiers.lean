import RobotBlocks.Proofs.Text.Names

/-! The shape of identifiers. Whatever a display name is, its identifier has this shape, and an identifier is its own
identifier. -/
namespace RobotBlocks.Text

/-- A letter or an underscore, and letters, digits and underscores behind it. -/
def IsIdentifier (s : String) : Prop :=
  ∃ first rest, s.toList = first :: rest ∧ (first.isAlpha = true ∨ first = '_') ∧
    ∀ c ∈ rest, c.isAlpha = true ∨ c.isDigit = true ∨ c = '_'

theorem isWordChar_iff {c : Char} : isWordChar c = true ↔ c.isAlpha = true ∨ c.isDigit = true ∨ c = '_' := by
  simp only [isWordChar, Char.isAlphanum, Bool.or_eq_true, beq_iff_eq, or_assoc]

theorem isWordChar_of_mem_guardStart {cs : List Char} (words : ∀ c ∈ cs, isWordChar c = true) :
    ∀ c ∈ guardStart cs, isWordChar c = true := by
  have underscore : isWordChar '_' = true := by decide
  unfold guardStart
  split
  · simpa using underscore
  · split
    · intro c member
      rcases List.mem_cons.mp member with rfl | member
      · exact underscore
      · exact words c member
    · exact words

/-- The guard is for the first character. -/
theorem guardStart_cases (cs : List Char) :
    ∃ first rest, guardStart cs = first :: rest ∧ first.isDigit = false := by
  unfold guardStart
  split
  · exact ⟨'_', [], rfl, by decide⟩
  · next c cs =>
    split
    · exact ⟨'_', c :: cs, rfl, by decide⟩
    · next other => exact ⟨c, cs, rfl, Bool.eq_false_iff.mpr other⟩

theorem guardStart_cons {first : Char} {rest : List Char} (other : first.isDigit = false) :
    guardStart (first :: rest) = first :: rest :=
  if_neg (by simp [other])

theorem isIdentifier_guardStart {cs : List Char} (words : ∀ c ∈ cs, isWordChar c = true) :
    IsIdentifier (String.ofList (guardStart cs)) := by
  obtain ⟨first, rest, is, other⟩ := guardStart_cases cs
  have shapes : ∀ c ∈ first :: rest, c.isAlpha = true ∨ c.isDigit = true ∨ c = '_' := fun c member =>
    isWordChar_iff.mp (isWordChar_of_mem_guardStart words c (is ▸ member))
  obtain ⟨start, later⟩ := List.forall_mem_cons.mp shapes
  refine ⟨first, rest, by rw [String.toList_ofList, is], ?_, later⟩
  simpa [other] using start

theorem isWordChar_of_mem_map {cs : List Char} :
    ∀ c ∈ cs.map fun c => if isWordChar c then c else '_', isWordChar c = true := by
  intro c member
  obtain ⟨before, -, rfl⟩ := List.mem_map.mp member
  split
  · next word => exact word
  · decide

/-- An identifier is a word. -/
theorem isWordChar_of_mem_identifier {name : String} {c : Char} (member : c ∈ (identifier name).toList) :
    isWordChar c = true := by
  rw [identifier, String.toList_ofList] at member
  exact isWordChar_of_mem_guardStart isWordChar_of_mem_map c member

theorem isIdentifier_identifier (name : String) : IsIdentifier (identifier name) :=
  isIdentifier_guardStart isWordChar_of_mem_map

theorem not_isBlank_of_isWordChar {c : Char} (word : isWordChar c = true) : isBlank c = false := by
  rw [Bool.eq_false_iff]
  intro blank
  have none : blanks.all (!isWordChar ·) = true := by decide
  simpa [word] using List.all_eq_true.mp none c (List.contains_iff_mem.mp blank)

theorem trimChars_of_words {cs : List Char} (words : ∀ c ∈ cs, isWordChar c = true) : trimChars cs = cs := by
  have kept : ∀ {cs : List Char}, (∀ c ∈ cs, isWordChar c = true) → cs.dropWhile isBlank = cs := by
    intro cs words
    refine List.dropWhile_eq_self_iff.mpr fun some blank => ?_
    rw [not_isBlank_of_isWordChar (words _ (List.getElem_mem some))] at blank
    cases blank
  rw [trimChars, kept words, kept fun c member => words c (List.mem_reverse.mp member), List.reverse_reverse]

theorem identifierChars_identifierChars (cs : List Char) :
    identifierChars (identifierChars cs) = identifierChars cs := by
  have words : ∀ c ∈ identifierChars cs, isWordChar c = true := isWordChar_of_mem_guardStart isWordChar_of_mem_map
  obtain ⟨first, rest, is, other⟩ := guardStart_cases ((trimChars cs).map fun c => if isWordChar c then c else '_')
  have same : (identifierChars cs).map (fun c => if isWordChar c then c else '_') = identifierChars cs := by
    rw [List.map_congr_left fun c member => if_pos (words c member), List.map_id']
  rw [identifierChars.eq_def (identifierChars cs), trimChars_of_words words, same, identifierChars, is,
    guardStart_cons other]

/-- An identifier is its own identifier. -/
theorem identifier_identifier (name : String) : identifier (identifier name) = identifier name := by
  rw [identifier.eq_def (identifier name), identifier, String.toList_ofList, identifierChars_identifierChars]

end RobotBlocks.Text
