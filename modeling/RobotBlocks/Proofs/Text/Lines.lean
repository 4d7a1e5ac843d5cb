import Mathlib.Data.List.Chain
import RobotBlocks.Text.Blank

/-! Texts in lines and in blocks. A line that ends in a colon opens a block, whose lines are one unit deeper. -/
namespace RobotBlocks.Text

variable {unit depth : Nat} {line one other code : List Char} {lines more : List (List Char)}

/-- The lines of a text that are not blank. -/
def textLines (text : String) : List (List Char) := (text.toList.splitOn '\n').filter fun line => !line.all isBlank

/-- The blanks in front of a line. -/
def margin (line : List Char) : List Char := line.takeWhile isBlank

/-- A line opens a block with a colon at its end. -/
def Opens (line : List Char) : Prop := line.getLast? = some ':'

/-- Of two lines, the second one is deeper by one unit if the first one opens a block, and otherwise not deeper. -/
structure Follows (unit : Nat) (one other : List Char) : Prop where
  inside : Opens one → (margin other).length = (margin one).length + unit
  beside : ¬ Opens one → (margin other).length ≤ (margin one).length

/-- Margins are whole units, each line stands as the one before it asks for, and no block is left open. -/
structure BlockStructured (unit : Nat) (lines : List (List Char)) : Prop where
  units : ∀ line ∈ lines, ∃ depth, margin line = List.replicate (depth * unit) ' '
  follows : lines.IsChain (Follows unit)
  closed : ∀ line ∈ lines.getLast?, ¬ Opens line

/-! Lines of code. -/

/-- Code starts with a character that is not blank. -/
def Starts (code : List Char) : Prop := ∃ first rest, code = first :: rest ∧ isBlank first = false

theorem margin_append (starts : Starts code) (count : Nat) :
    margin (List.replicate count ' ' ++ code) = List.replicate count ' ' := by
  obtain ⟨first, rest, rfl, solid⟩ := starts
  have blanks : ∀ c ∈ List.replicate count ' ', isBlank c = true := fun c member => by
    rw [List.eq_of_mem_replicate member]
    decide
  rw [margin, List.takeWhile_append_of_pos blanks, List.takeWhile_cons_of_neg (by simp [solid]), List.append_nil]

theorem opens_append (starts : Starts code) (front : List Char) : Opens (front ++ code) ↔ Opens code := by
  obtain ⟨first, rest, rfl, -⟩ := starts
  simp [Opens, List.getLast?_append]

theorem not_all_blank (starts : Starts code) (front : List Char) : (front ++ code).all isBlank = false := by
  obtain ⟨first, rest, rfl, solid⟩ := starts
  simp [solid]

/-! Parts of a block. -/

/-- Lines inside a block of the first depth, from one of this depth to one that leaves no block open. -/
structure Piece (unit : Nat) (lines : List (List Char)) : Prop where
  units : ∀ line ∈ lines, ∃ depth, margin line = List.replicate (depth * unit) ' '
  follows : lines.IsChain (Follows unit)
  first : ∀ line ∈ lines.head?, (margin line).length = unit
  last : ∀ line ∈ lines.getLast?, ¬ Opens line ∧ unit ≤ (margin line).length

theorem Piece.nil : Piece unit [] := ⟨nofun, .nil, nofun, nofun⟩

theorem Piece.append (front : Piece unit lines) (back : Piece unit more) : Piece unit (lines ++ more) where
  units line member := (List.mem_append.mp member).elim (front.units line) (back.units line)
  follows := by
    refine List.isChain_append.mpr ⟨front.follows, back.follows, fun one ends other starts => ?_⟩
    obtain ⟨closed, deep⟩ := front.last one ends
    have shallow := back.first other starts
    exact ⟨fun opens => absurd opens closed, fun _ => shallow.trans_le deep⟩
  first line is := by
    cases lines with
    | nil => exact back.first line is
    | cons => exact front.first line is
  last line is := by
    rcases more.eq_nil_or_concat with rfl | ⟨others, last, rfl⟩
    · rw [List.append_nil] at is
      exact front.last line is
    · refine back.last line ?_
      simpa [← List.append_assoc] using is

theorem Piece.flatten {pieces : List (List (List Char))} (each : ∀ piece ∈ pieces, Piece unit piece) :
    Piece unit pieces.flatten := by
  induction pieces with
  | nil => exact .nil
  | cons piece rest ih =>
    obtain ⟨here, later⟩ := List.forall_mem_cons.mp each
    exact here.append (ih later)

/-- A line that opens a block and the lines of this block, where they open no other one. -/
theorem Piece.block {head : List Char} {body : List (List Char)} (opens : Opens head)
    (shallow : margin head = List.replicate unit ' ') (some : body ≠ [])
    (deep : ∀ line ∈ body, margin line = List.replicate (2 * unit) ' ' ∧ ¬ Opens line) :
    Piece unit (head :: body) where
  units := by
    refine List.forall_mem_cons.mpr ⟨⟨1, by rw [shallow, Nat.one_mul]⟩, fun line member => ⟨2, (deep line member).1⟩⟩
  follows := by
    have level : ∀ line ∈ body, (margin line).length = 2 * unit := fun line member => by
      rw [(deep line member).1, List.length_replicate]
    refine List.isChain_cons.mpr ⟨fun line first => ⟨fun _ => ?_, fun shut => absurd opens shut⟩, ?_⟩
    · rw [level line (List.mem_of_mem_head? first), shallow, List.length_replicate, Nat.two_mul]
    · refine (List.pairwise_of_forall_mem_list fun one member other member' => ?_).isChain
      exact ⟨fun inner => absurd inner (deep one member).2,
        fun _ => by rw [level one member, level other member']⟩
  first line is := by
    cases is
    rw [shallow, List.length_replicate]
  last line is := by
    rw [List.getLast?_cons, List.getLast?_eq_some_getLast some] at is
    obtain ⟨margin, closed⟩ := deep line (by cases is; exact List.getLast_mem some)
    rw [margin, List.length_replicate]
    exact ⟨closed, by omega⟩

/-- Below a line that opens a block the parts of this block follow one another. -/
theorem BlockStructured.of_piece {head : List Char} (opens : Opens head) (outside : margin head = [])
    (some : lines ≠ []) (piece : Piece unit lines) : BlockStructured unit (head :: lines) where
  units := List.forall_mem_cons.mpr ⟨⟨0, by rw [outside, Nat.zero_mul, List.replicate_zero]⟩, piece.units⟩
  follows := by
    refine List.isChain_cons.mpr ⟨fun line first => ⟨fun _ => ?_, fun shut => absurd opens shut⟩, piece.follows⟩
    rw [piece.first line first, outside, List.length_nil, Nat.zero_add]
  closed line is := by
    rw [List.getLast?_cons, List.getLast?_eq_some_getLast some] at is
    exact (piece.last line (by rw [List.getLast?_eq_some_getLast some]; exact is)).1

/-! Texts of lines. -/

theorem mem_intercalate {α : Type} {a : α} {separator : List α} {parts : List (List α)}
    (member : a ∈ separator.intercalate parts) : a ∈ separator ∨ ∃ part ∈ parts, a ∈ part := by
  induction parts with
  | nil => cases member
  | cons part rest ih =>
    cases rest with
    | nil =>
      rw [List.intercalate_singleton] at member
      exact .inr ⟨part, List.mem_singleton_self _, member⟩
    | cons =>
      rw [List.intercalate_cons_cons, List.append_assoc, List.mem_append, List.mem_append] at member
      rcases member with here | apart | later
      · exact .inr ⟨part, List.mem_cons_self .., here⟩
      · exact .inl apart
      · exact (ih later).imp_right fun ⟨other, listed, inside⟩ => ⟨other, List.mem_cons_of_mem _ listed, inside⟩

/-- Separators that are left out need not be written. -/
theorem filter_intercalate {α : Type} {p : α → Bool} {separator : α} (dropped : p separator = false)
    (parts : List (List α)) : ([separator].intercalate parts).filter p = parts.flatten.filter p := by
  induction parts with
  | nil => rfl
  | cons part rest ih =>
    cases rest with
    | nil => rw [List.intercalate_singleton, List.flatten_singleton]
    | cons => simp [List.intercalate_cons_cons, ih, dropped]

/-- Lines that are written one below the other are the lines of the text. -/
theorem textLines_intercalate {parts : List String} (some : parts ≠ []) (single : ∀ part ∈ parts, '\n' ∉ part.toList) :
    textLines ("\n".intercalate parts ++ "\n") = (parts.map String.toList).filter fun line => !line.all isBlank := by
  have joined : "\n".intercalate parts ++ "\n" = "\n".intercalate (parts ++ [""]) := by
    rw [String.intercalate_append_of_ne_nil some (by simp), String.intercalate_singleton, String.append_empty]
  have apart : ∀ line ∈ (parts ++ [""]).map String.toList, '\n' ∉ line := by
    simpa [or_imp, forall_and] using single
  have chars : ("\n".intercalate (parts ++ [""])).toList = ['\n'].intercalate ((parts ++ [""]).map String.toList) :=
    String.toList_intercalate
  rw [textLines, joined, chars, List.splitOn_intercalate '\n' apart (by simp)]
  simp

/-! Texts made of lines. -/

/-- The text of some lines, each of which ends in a break. -/
def ofLines (lines : List String) : String := String.join (lines.map (· ++ "\n"))

/-- Some lines stand in a text, one right after the other. -/
def HasLines (text : String) (lines : List String) : Prop :=
  ∃ before after, text = ofLines (before ++ lines ++ after)

variable {text : String} {rows part : List String}

theorem ofLines_eq (some : rows ≠ []) : ofLines rows = "\n".intercalate rows ++ "\n" := by
  induction rows with
  | nil => exact absurd rfl some
  | cons line rest ih =>
    rw [ofLines, List.map_cons, String.join_cons]
    cases rest with
    | nil => simp
    | cons next rest =>
      simpa [ofLines, String.append_assoc] using congrArg (line ++ "\n" ++ ·) (ih nofun)

theorem HasLines.narrow (has : HasLines text rows) (inside : part <:+: rows) : HasLines text part := by
  obtain ⟨before, after, rfl⟩ := has
  obtain ⟨front, back, rfl⟩ := inside
  exact ⟨before ++ front, back ++ after, by simp⟩

theorem infix_intercalate {α : Type} {separator part : List α} {parts : List (List α)} (member : part ∈ parts) :
    part <:+: separator.intercalate parts := by
  induction parts with
  | nil => cases member
  | cons first rest ih =>
    cases rest with
    | nil => exact ⟨[], [], by simp [List.mem_singleton.mp member, List.intercalate_singleton]⟩
    | cons next rest =>
      rw [List.intercalate_cons_cons]
      rcases List.mem_cons.mp member with rfl | later
      · exact ⟨[], separator ++ separator.intercalate (next :: rest), by simp⟩
      · exact (ih later).trans ⟨first ++ separator, [], by simp⟩

end RobotBlocks.Text
