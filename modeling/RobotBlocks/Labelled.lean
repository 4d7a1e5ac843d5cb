/-! Values under labels, in the order in which the labels first arrived. Putting a value under a
label that is already there replaces the value and keeps the place. -/
namespace RobotBlocks

abbrev Labelled (α : Type) := List (String × α)

namespace Labelled

variable {α : Type}

def get? : Labelled α → String → Option α
  | [], _ => none
  | (name, value) :: rest, label => if name = label then some value else get? rest label

def put : Labelled α → String → α → Labelled α
  | [], label, value => [(label, value)]
  | (name, old) :: rest, label, value =>
    if name = label then (name, value) :: rest else (name, old) :: put rest label value

/-- Puts a value under a label that is not there yet. -/
def putNew (entries : Labelled α) (label : String) (value : α) : Labelled α :=
  match entries.get? label with
  | some _ => entries
  | none => entries ++ [(label, value)]

/-- Putting changes what stands under its own label and nothing else. -/
@[simp] theorem get?_put (entries : Labelled α) (label other : String) (value : α) :
    (entries.put label value).get? other
      = if label = other then some value else entries.get? other := by
  induction entries with
  | nil => rfl
  | cons entry rest ih =>
    obtain ⟨name, old⟩ := entry
    by_cases same : name = label
    · subst same
      by_cases found : name = other <;> simp [put, get?, found]
    · by_cases found : name = other
      · subst found
        simp [put, get?, same, Ne.symm same]
      · simp [put, get?, same, found, ih]

theorem get?_append (entries more : Labelled α) (label : String) :
    get? (entries ++ more) label = (entries.get? label).or (more.get? label) := by
  induction entries with
  | nil => rfl
  | cons entry rest ih =>
    obtain ⟨name, value⟩ := entry
    by_cases found : name = label <;> simp [get?, found, ih]

/-- A new label gets the value, a known one keeps its own. -/
@[simp] theorem get?_putNew (entries : Labelled α) (label other : String) (value : α) :
    (entries.putNew label value).get? other
      = (entries.get? other).or (if label = other then some value else none) := by
  unfold putNew
  split
  · next old known =>
    by_cases same : label = other
    · subst same
      simp [known]
    · simp [same]
  · rw [get?_append]
    rfl

/-- Puts pairs one after the other: of two under one label the later value wins and the earlier
place stays. -/
def ofPairs (pairs : List (String × α)) : Labelled α :=
  pairs.foldl (fun entries (label, value) => put entries label value) []

end Labelled
end RobotBlocks
