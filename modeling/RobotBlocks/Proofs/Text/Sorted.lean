import Mathlib.Data.List.Nodup
import Mathlib.Data.List.Sort
import RobotBlocks.Text.Sorted

/-! Lists of names stay ascending. A name that is put in goes between those below it and those above it. -/
namespace RobotBlocks.Text

theorem insertName_sorted (name : String) {names : List String} (sorted : names.Pairwise (· < ·)) :
    (insertName name names).Pairwise (· < ·) := by
  induction sorted with
  | nil => exact List.pairwise_singleton ..
  | @cons other rest above sorted ih =>
    unfold insertName
    split
    · exact .cons above sorted
    · next differs =>
      split
      · next before =>
        refine .cons (fun later member => ?_) (.cons above sorted)
        rcases List.mem_cons.mp member with rfl | member
        · exact before
        · exact String.lt_trans before (above later member)
      · next after =>
        refine .cons (fun later member => ?_) ih
        rcases (mem_insertName name later rest).mp member with rfl | member
        · exact Std.lt_of_le_of_ne (Std.not_lt.mp after) (Ne.symm differs)
        · exact above later member

theorem ascending_sorted (names : List String) : (ascending names).Pairwise (· < ·) := by
  have gathered : ∀ sorted : List String, sorted.Pairwise (· < ·) →
      (names.foldl (fun sorted name => insertName name sorted) sorted).Pairwise (· < ·) := by
    induction names with
    | nil => exact fun _ sorted => sorted
    | cons name rest ih => exact fun _ sorted => ih _ (insertName_sorted name sorted)
  exact gathered [] .nil

theorem ascending_nodup (names : List String) : (ascending names).Nodup :=
  (ascending_sorted names).imp fun before => String.ne_of_lt before

/-- Lists that are in strict order of a name are the same if they have the same members. -/
theorem eq_of_ascending {α : Type} {name : α → String} {entries others : List α}
    (sorted : entries.Pairwise fun a b => name a < name b) (sorted' : others.Pairwise fun a b => name a < name b)
    (same : ∀ entry, entry ∈ entries ↔ entry ∈ others) : entries = others := by
  have irreflexive : Std.Irrefl fun a b : α => name a < name b := ⟨fun a => String.lt_irrefl (name a)⟩
  have antisymmetric : Std.Antisymm fun a b : α => name a < name b :=
    ⟨fun a b before after => absurd (String.lt_trans before after) (String.lt_irrefl (name a))⟩
  exact sorted.eq_of_mem_iff sorted' same

end RobotBlocks.Text
