import Mathlib.Algebra.Ring.Parity
import Mathlib.Data.List.DropRight
import Mathlib.Data.List.Induction
import RobotBlocks.Text.Quoted

/-! Literals. Undoing the escapes of a literal gives its value, so no two values share a literal. Inside a literal
every double quote follows an odd number of backslashes, and the one at its end an even number: no value can end
its literal early or keep it from ending. -/
namespace RobotBlocks.Text

variable {cs before after : List Char} {c d : Char} {text : String}

/-- The number of backslashes that a text ends with. -/
def backslashesAtEnd (cs : List Char) : Nat := (cs.rtakeWhile (· = '\\')).length

@[simp] theorem backslashesAtEnd_concat (cs : List Char) (c : Char) :
    backslashesAtEnd (cs ++ [c]) = if c = '\\' then backslashesAtEnd cs + 1 else 0 := by
  unfold backslashesAtEnd
  rw [List.rtakeWhile_concat]
  simp only [decide_eq_true_eq]
  split <;> simp

/-- A character is written with a backslash and a letter that stands for it, or it needs no escape and stands for
itself. -/
theorem quoteChar_cases (c : Char) :
    (∃ letter, quoteChar c = ['\\', letter] ∧ escaped? letter = some c ∧ letter ∉ ['\n', '\r', '\t']) ∨
      quoteChar c = [c] ∧ c ≠ '\\' ∧ c ≠ '"' ∧ c ∉ ['\n', '\r', '\t'] := by
  unfold quoteChar
  split
  · next letter escapes =>
    refine .inl ⟨letter, rfl, ?_⟩
    unfold escapeLetter? at escapes
    split at escapes <;> cases escapes <;> decide
  · next plain =>
    refine .inr ⟨rfl, ?_, ?_, fun member => ?_⟩
    · rintro rfl
      cases plain
    · rintro rfl
      cases plain
    · simp only [List.mem_cons, List.not_mem_nil, or_false] at member
      rcases member with rfl | rfl | rfl <;> cases plain

/-! Reading. -/

theorem unquoteChars?_quoteChar (c : Char) (rest : List Char) :
    unquoteChars? (quoteChar c ++ rest) = (unquoteChars? rest).map (c :: ·) := by
  rcases quoteChar_cases c with ⟨letter, pair, stands, -⟩ | ⟨single, backslash, quote, -⟩
  · rw [pair, Option.map_eq_bind]
    simp only [List.cons_append, List.nil_append, unquoteChars?, stands]
    rfl
  · rw [single]
    simp [unquoteChars?, backslash, quote]

theorem unquoteChars?_quoteChars (cs : List Char) : unquoteChars? (quoteChars cs) = some cs := by
  induction cs with
  | nil => rfl
  | cons c cs ih =>
    rw [quoteChars, List.flatMap_cons, unquoteChars?_quoteChar, ← quoteChars, ih, Option.map_some]

theorem toList_quoted (text : String) : (quoted text).toList = '"' :: quoteChars text.toList ++ ['"'] :=
  String.toList_ofList

theorem quoted_injective : Function.Injective quoted := by
  intro text other same
  have inner : quoteChars text.toList = quoteChars other.toList := by
    have chars := congrArg String.toList same
    rw [toList_quoted, toList_quoted] at chars
    exact (List.cons.inj (List.append_cancel_right chars)).2
  rw [← String.toList_inj]
  have read := congrArg unquoteChars? inner
  rwa [unquoteChars?_quoteChars, unquoteChars?_quoteChars, Option.some_inj] at read

/-! Line breaks and tabs. -/

theorem notMem_of_mem_quoted (member : c ∈ (quoted text).toList) : c ∉ ['\n', '\r', '\t'] := by
  rw [toList_quoted, List.cons_append, List.mem_cons, List.mem_append, List.mem_singleton] at member
  rcases member with rfl | inside | rfl
  · decide
  · obtain ⟨before, -, written⟩ := List.mem_flatMap.mp inside
    rcases quoteChar_cases before with ⟨letter, pair, -, solid⟩ | ⟨single, -, -, solid⟩
    · rw [pair] at written
      rcases List.mem_cons.mp written with rfl | written
      · decide
      · exact List.mem_singleton.mp written ▸ solid
    · rw [single] at written
      exact List.mem_singleton.mp written ▸ solid
  · decide

/-! Backslashes. -/

theorem quoteChars_concat (cs : List Char) (c : Char) : quoteChars (cs ++ [c]) = quoteChars cs ++ quoteChar c := by
  simp [quoteChars]

/-- What is written ends between two characters of the value, not inside an escape. -/
theorem even_backslashesAtEnd (cs : List Char) : Even (backslashesAtEnd (quoteChars cs)) := by
  induction cs using List.reverseRecOn with
  | nil => exact .zero
  | append_singleton cs c ih =>
    rw [quoteChars_concat]
    rcases quoteChar_cases c with ⟨letter, pair, -⟩ | ⟨single, backslash, -⟩
    · rw [pair, ← List.singleton_append, ← List.append_assoc, backslashesAtEnd_concat]
      split
      · rw [backslashesAtEnd_concat, if_pos rfl]
        exact ih.add even_two
      · exact .zero
    · rw [single, backslashesAtEnd_concat, if_neg backslash]
      exact .zero

/-- By induction on the value from its end: the double quote belongs to the last character, whose backslash comes
behind an even number of them, or it stands further ahead. -/
theorem odd_backslashesAtEnd (inside : quoteChars cs = before ++ '"' :: after) : Odd (backslashesAtEnd before) := by
  induction cs using List.reverseRecOn generalizing after with
  | nil => simp [quoteChars] at inside
  | append_singleton cs c ih =>
    have starts : ∀ rest, quoteChar c ≠ '"' :: rest := by
      intro rest starts
      rcases quoteChar_cases c with ⟨letter, pair, -⟩ | ⟨single, -, quote, -⟩
      · rw [pair] at starts
        cases starts
      · rw [single] at starts
        exact quote (List.cons.inj starts).1
    rw [quoteChars_concat, List.append_eq_append_iff] at inside
    rcases inside with ⟨own, rfl, last⟩ | ⟨more, earlier, last⟩
    · cases own with
      | nil => exact absurd last (starts after)
      | cons first own =>
        rcases quoteChar_cases c with ⟨letter, pair, -⟩ | ⟨single, -⟩
        · rw [pair] at last
          obtain ⟨rfl, last⟩ := List.cons.inj last
          obtain rfl : own = [] := by
            cases own with
            | nil => rfl
            | cons second own => simp at last
          rw [backslashesAtEnd_concat, if_pos rfl]
          exact (even_backslashesAtEnd cs).add_one
        · rw [single] at last
          simp at last
    · cases more with
      | nil => exact absurd last.symm (starts after)
      | cons first more =>
        rw [List.cons_append] at last
        obtain ⟨rfl, -⟩ := List.cons.inj last
        exact ih earlier

/-- A literal stands between two double quotes and holds no line feed, carriage return or tab. Every double quote
inside it is escaped and the one at its end is not, and undoing the escapes gives the value; so different values
have different literals. -/
theorem quoted_reads_back :
    (∀ text : String, ∃ inside, (quoted text).toList = '"' :: inside ++ ['"'] ∧
      (∀ c ∈ (quoted text).toList, c ≠ '\n' ∧ c ≠ '\r' ∧ c ≠ '\t') ∧
      (∀ before after, inside = before ++ '"' :: after → Odd (backslashesAtEnd before)) ∧
      Even (backslashesAtEnd inside) ∧ unquoteChars? inside = some text.toList) ∧
    ∀ text other : String, text ≠ other → quoted text ≠ quoted other := by
  refine ⟨fun text => ⟨quoteChars text.toList, toList_quoted text, fun c member => ?_, fun before after inside => ?_,
    even_backslashesAtEnd text.toList, unquoteChars?_quoteChars text.toList⟩, fun text other => quoted_injective.ne⟩
  · simpa using notMem_of_mem_quoted member
  · exact odd_backslashesAtEnd inside

/-- A value of a backslash and a double quote: its double quote follows three backslashes. -/
theorem quoted_reads_back_both :
    Odd (backslashesAtEnd ['\\', '\\', '\\']) ∧
      unquoteChars? ['\\', '\\', '\\', '"'] = some "\\\"".toList ∧ quoted "\\\"" ≠ quoted "\\" := by
  obtain ⟨inside, is, -, odd, -, read⟩ := quoted_reads_back.1 "\\\""
  obtain rfl : inside = ['\\', '\\', '\\', '"'] := by
    rw [show (quoted "\\\"").toList = '"' :: ['\\', '\\', '\\', '"'] ++ ['"'] by decide] at is
    exact (List.cons.inj (List.append_cancel_right is)).2.symm
  exact ⟨odd _ [] rfl, read, quoted_reads_back.2 _ _ (by decide)⟩

end RobotBlocks.Text
