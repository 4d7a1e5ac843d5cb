import Mathlib.Data.List.TakeDrop
import Mathlib.Data.List.TakeWhile
import RobotBlocks.Proofs.Text.Identifiers
import RobotBlocks.Store.Basic

/-! Paths of modules. A path is read exactly if it is written from two names, and writing and reading undo each
other; so no two modules share a path. -/
namespace RobotBlocks

/-- A letter of the Latin alphabet without marks, small or capital. -/
def IsLetter (c : Char) : Prop := 'a' ≤ c ∧ c ≤ 'z' ∨ 'A' ≤ c ∧ c ≤ 'Z'

/-- A letter, and letters, digits and underscores behind it. -/
def IsName (name : String) : Prop :=
  ∃ first rest, name.toList = first :: rest ∧ IsLetter first ∧
    ∀ c ∈ rest, IsLetter c ∨ '0' ≤ c ∧ c ≤ '9' ∨ c = '_'

/-- The names of a workspace and of a module there. -/
structure ModulePath.Named (path : ModulePath) : Prop where
  workspace : IsName path.workspace
  module : IsName path.module

theorem isLetter_iff {c : Char} : IsLetter c ↔ c.isAlpha = true := by
  have upper : c.isUpper = true ↔ 'A' ≤ c ∧ c ≤ 'Z' := decide_eq_true_iff
  have lower : c.isLower = true ↔ 'a' ≤ c ∧ c ≤ 'z' :=
    Bool.and_eq_true_iff.trans (and_congr decide_eq_true_iff decide_eq_true_iff)
  have either : c.isAlpha = true ↔ c.isUpper = true ∨ c.isLower = true := Bool.or_eq_true_iff
  rw [either, upper, lower]
  exact or_comm

theorem isDigit_iff {c : Char} : c.isDigit = true ↔ '0' ≤ c ∧ c ≤ '9' :=
  Bool.and_eq_true_iff.trans (and_congr decide_eq_true_iff decide_eq_true_iff)

theorem isValidName_iff {name : String} : isValidName name = true ↔ IsName name := by
  unfold isValidName
  split
  · next empty => simp [IsName, empty]
  · next c cs letters =>
    simp only [IsName, letters, List.cons.injEq, and_assoc, exists_and_left, exists_eq_left', Bool.and_eq_true,
      List.all_eq_true, Text.isWordChar_iff, isLetter_iff, isDigit_iff]

namespace ModulePath

variable {text : String} {path other : ModulePath}

/-- A path is the text of its parts. -/
theorem text_ofText? (parts : ofText? text = some path) : path.text = text := by
  unfold ofText? at parts
  rw [List.span_eq_takeWhile_dropWhile] at parts
  dsimp only at parts
  cases rest : text.toList.dropWhile fun c => decide (c ≠ '/') with
  | nil =>
    rw [rest] at parts
    cases parts
  | cons slash file =>
    have first : slash = '/' := by
      have found := text.toList.find?_not_eq_head?_dropWhile fun c => decide (c ≠ '/')
      rw [rest, List.head?_cons] at found
      simpa using List.find?_some found
    simp only [rest] at parts
    split at parts
    · next ends =>
      split at parts
      · have parts := Option.some.inj parts
        rw [← String.toList_inj, ← parts]
        simp only [ModulePath.text, String.toList_append, String.toList_ofList]
        calc
          _ = text.toList.takeWhile (fun c => decide (c ≠ '/')) ++ slash ::
              (file.take (file.length - extension.length) ++ file.drop (file.length - extension.length)) := by
            rw [ends, first]
            simp
          _ = text.toList := by rw [List.take_append_drop, ← rest, List.takeWhile_append_dropWhile]
      · cases parts
    · cases parts

theorem slash_notMem {name : String} (valid : isValidName name = true) : '/' ∉ name.toList := by
  unfold isValidName at valid
  split at valid
  · cases valid
  · next c cs letters =>
    rw [letters]
    simp only [Bool.and_eq_true, List.all_eq_true] at valid
    rw [List.mem_cons, not_or]
    refine ⟨?_, fun member => ?_⟩
    · rintro rfl
      exact absurd valid.1 (by decide)
    · exact absurd (valid.2 _ member) (by decide)

/-- The text of two valid names is read back. -/
theorem ofText?_text (workspace : isValidName path.workspace = true) (module : isValidName path.module = true) :
    ofText? path.text = some path := by
  have letters : path.text.toList = path.workspace.toList ++ '/' :: (path.module.toList ++ extension.toList) := by
    simp [ModulePath.text, String.toList_append]
  have plain : ∀ c ∈ path.workspace.toList, decide (c ≠ '/') = true := by
    intro c member
    rw [decide_eq_true_eq]
    rintro rfl
    exact slash_notMem workspace member
  have stem : (path.module.toList ++ extension.toList).length - extension.length = path.module.toList.length := by
    rw [List.length_append, String.length_toList, String.length_toList, Nat.add_sub_cancel]
  unfold ofText?
  rw [List.span_eq_takeWhile_dropWhile, letters, List.takeWhile_append_of_pos plain,
    List.dropWhile_append_of_pos plain]
  simp only [List.takeWhile_cons, List.dropWhile_cons, ne_eq, not_true, decide_false, Bool.false_eq_true,
    if_false, List.append_nil, stem, List.drop_left, List.take_left, if_true, String.ofList_toList, workspace, module,
    Bool.and_self]

theorem valid_ofText? (parts : ofText? text = some path) :
    isValidName path.workspace = true ∧ isValidName path.module = true := by
  unfold ofText? at parts
  dsimp only at parts
  split at parts
  · cases parts
  · split at parts
    · split at parts
      · next valid =>
        cases parts
        exact Bool.and_eq_true_iff.mp valid
      · cases parts
    · cases parts

theorem ofText?_eq_some_iff : ofText? text = some path ↔ path.Named ∧ path.text = text := by
  constructor
  · intro parts
    obtain ⟨workspace, module⟩ := valid_ofText? parts
    exact ⟨⟨isValidName_iff.mp workspace, isValidName_iff.mp module⟩, text_ofText? parts⟩
  · rintro ⟨⟨workspace, module⟩, rfl⟩
    exact ofText?_text (isValidName_iff.mpr workspace) (isValidName_iff.mpr module)

theorem Named.inj (named : path.Named) (named' : other.Named) (same : path.text = other.text) : path = other := by
  have parts := ofText?_eq_some_iff.mpr ⟨named, same⟩
  exact Option.some.inj (parts.symm.trans (ofText?_eq_some_iff.mpr ⟨named', rfl⟩))

end ModulePath

theorem parsePath_eq_ok_iff {text : String} {path : ModulePath} :
    parsePath text = .ok path ↔ path.Named ∧ path.text = text := by
  rw [← ModulePath.ofText?_eq_some_iff, parsePath]
  cases ModulePath.ofText? text <;> simp

/-- A path is read as two parts exactly if both are names and it is the one, a slash, the other and the extension;
any other text is refused as it is. What is written from two names is read back, what is read is written again,
and different modules have different paths. -/
theorem parsePath_exact :
    (∀ text workspace module, parsePath text = .ok ⟨workspace, module⟩ ↔
      IsName workspace ∧ IsName module ∧ text = workspace ++ "/" ++ module ++ ".blk") ∧
    (∀ text, (∀ path, parsePath text ≠ .ok path) → parsePath text = .error (.invalidPath text)) ∧
    (∀ path : ModulePath, path.Named → parsePath path.text = .ok path) ∧
    (∀ text path, parsePath text = .ok path → path.Named ∧ path.text = text) ∧
    ∀ path other : ModulePath, path.Named → other.Named → path.text = other.text → path = other := by
  refine ⟨fun text workspace module => ?_, fun text refused => ?_, fun path named => ?_, fun text path => ?_,
    fun path other => ModulePath.Named.inj⟩
  · rw [parsePath_eq_ok_iff, eq_comm (a := text), ← and_assoc]
    exact and_congr_left' ⟨fun named => ⟨named.workspace, named.module⟩, fun ⟨own, name⟩ => ⟨own, name⟩⟩
  · unfold parsePath at refused ⊢
    cases parts : ModulePath.ofText? text with
    | none => rfl
    | some path => exact absurd (by rw [parts]) (refused path)
  · exact parsePath_eq_ok_iff.mpr ⟨named, rfl⟩
  · exact parsePath_eq_ok_iff.mp

/-- A module may bear the name of the extension, but it cannot have the extension in its name. -/
theorem parsePath_exact_extension :
    parsePath "Drive_2/blk.blk" = .ok ⟨"Drive_2", "blk"⟩ ∧
      parsePath "Drive_2/blk.blk.blk" ≠ .ok ⟨"Drive_2", "blk.blk"⟩ := by
  have named : ModulePath.Named ⟨"Drive_2", "blk"⟩ :=
    ⟨isValidName_iff.mp (by decide), isValidName_iff.mp (by decide)⟩
  refine ⟨parsePath_exact.2.2.1 _ named, fun read => ?_⟩
  obtain ⟨-, name, -⟩ := (parsePath_exact.1 _ _ _).mp read
  exact absurd (isValidName_iff.mpr name) (by decide)

end RobotBlocks
