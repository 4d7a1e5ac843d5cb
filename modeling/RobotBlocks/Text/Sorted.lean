/-! Ascending lists of names without repetition. Names are compared character by character. -/
namespace RobotBlocks.Text

/-- Puts a name at its place in an ascending list, once. -/
def insertName (name : String) : List String → List String
  | [] => [name]
  | other :: rest =>
    if name = other then other :: rest
    else if name < other then name :: other :: rest
    else other :: insertName name rest

/-- The distinct names of a list in ascending order. -/
def ascending (names : List String) : List String :=
  names.foldl (fun sorted name => insertName name sorted) []

@[simp] theorem mem_insertName (name other : String) (names : List String) :
    other ∈ insertName name names ↔ other = name ∨ other ∈ names := by
  induction names with
  | nil => simp [insertName]
  | cons first rest ih =>
    unfold insertName
    split
    · next same => subst same; simp
    · split
      · simp
      · simp only [List.mem_cons, ih]
        exact or_left_comm

/-- Nothing is lost and nothing is added. -/
@[simp] theorem mem_ascending (names : List String) (name : String) :
    name ∈ ascending names ↔ name ∈ names := by
  have gathered (names sorted : List String) :
      name ∈ names.foldl (fun sorted name => insertName name sorted) sorted
        ↔ name ∈ names ∨ name ∈ sorted := by
    induction names generalizing sorted with
    | nil => simp
    | cons first rest ih =>
      simp only [List.foldl_cons, ih, mem_insertName, List.mem_cons]
      rw [or_left_comm, or_assoc]
  simpa [ascending] using gathered names []

end RobotBlocks.Text
