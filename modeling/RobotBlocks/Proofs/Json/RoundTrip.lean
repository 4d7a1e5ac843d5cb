import RobotBlocks.Proofs.Json.Tokens

/-! Printed documents are read back as they are, whatever strings they hold and however deep they
nest. -/
namespace RobotBlocks.Json

open Reader

mutual

/-- All texts are readable and all numerals are of the grammar. -/
def Value.WellFormed : Value → Prop
  | .null | .bool _ => True
  | .number n => n.WellFormed
  | .string text => text.isSome = true
  | .array items => WellFormedItems items
  | .object members => WellFormedMembers members

def WellFormedItems : List Value → Prop
  | [] => True
  | item :: items => item.WellFormed ∧ WellFormedItems items

def WellFormedMembers : List (Text × Value) → Prop
  | [] => True
  | (name, value) :: members =>
    name.isSome = true ∧ value.WellFormed ∧ WellFormedMembers members

end

/-! White space. -/

theorem skipSpace_newline (level : Nat) (cs : List Char) :
    skipSpace (Printer.newline level ++ cs) = skipSpace cs := by
  have spaces : ∀ n, skipSpace (List.replicate n ' ' ++ cs) = skipSpace cs := by
    intro n
    induction n with
    | zero => rfl
    | succ n ih =>
      rw [List.replicate_succ, List.cons_append]
      exact ih
  exact spaces (2 * level)

theorem skipSpace_cons {c : Char} (cs : List Char) (dark : isSpace c = false) :
    skipSpace (c :: cs) = c :: cs := by
  simp [skipSpace, dark]

/-- What a printed numeral starts with. -/
structure StartsNumeral (c : Char) : Prop where
  apart : ∀ other, other ≠ '-' → other.isDigit = false → c ≠ other

theorem startsNumeral_of_digit {c : Char} (digit : c.isDigit = true) : StartsNumeral c := by
  constructor
  rintro _ - other rfl
  rw [other] at digit
  cases digit

theorem numeral_eq_cons {n : Numeral} (wellFormed : n.WellFormed) :
    ∃ c cs, Printer.numeral n = c :: cs ∧ StartsNumeral c := by
  obtain ⟨c, cs, digits⟩ := List.exists_cons_of_ne_nil wellFormed.some_digit
  have digit := wellFormed.digits c (by rw [digits]; exact List.mem_cons_self ..)
  unfold Printer.numeral
  cases n.negative with
  | true => exact ⟨'-', _, rfl, ⟨fun _ sign _ => sign.symm⟩⟩
  | false => exact ⟨c, _, by rw [digits]; rfl, startsNumeral_of_digit digit⟩

/-- A printed value starts with something that is neither white space nor a closing bracket. -/
theorem indented_eq_cons {v : Value} (wellFormed : v.WellFormed) (level : Nat) :
    ∃ c cs, Printer.indented level v = c :: cs ∧ isSpace c = false ∧ c ≠ ']' := by
  cases v with
  | null => exact ⟨'n', _, rfl, by decide, by decide⟩
  | bool value =>
    cases value with
    | false => exact ⟨'f', _, rfl, by decide, by decide⟩
    | true => exact ⟨'t', _, rfl, by decide, by decide⟩
  | number n =>
    obtain ⟨c, cs, same, numeric⟩ := numeral_eq_cons wellFormed
    refine ⟨c, cs, same, ?_, numeric.apart _ (by decide) (by decide)⟩
    have blank := numeric.apart ' ' (by decide) (by decide)
    have feed := numeric.apart '\n' (by decide) (by decide)
    have tab := numeric.apart '\t' (by decide) (by decide)
    have back := numeric.apart '\r' (by decide) (by decide)
    simp [isSpace, blank, feed, tab, back]
  | string text => exact ⟨'"', _, rfl, by decide, by decide⟩
  | array items => cases items <;> exact ⟨'[', _, rfl, by decide, by decide⟩
  | object members =>
    cases members with
    | nil => exact ⟨'\x7b', _, rfl, by decide, by decide⟩
    | cons member members => exact ⟨'\x7b', _, rfl, by decide, by decide⟩

theorem skipSpace_indented {v : Value} (wellFormed : v.WellFormed) (level : Nat) (rest : List Char) :
    skipSpace (Printer.indented level v ++ rest) = Printer.indented level v ++ rest := by
  obtain ⟨c, cs, same, dark, -⟩ := indented_eq_cons wellFormed level
  rw [same]
  exact skipSpace_cons (cs ++ rest) dark

theorem stops_newline (level : Nat) (rest : List Char) : Stops (Printer.newline level ++ rest) := by
  intro c cs same
  cases same
  decide

theorem stops_items (level : Nat) (items : List Value) (rest : List Char) :
    Stops (Printer.indentedItems level items ++ (Printer.newline level ++ rest)) := by
  cases items with
  | nil => exact stops_newline level rest
  | cons item items =>
    intro c cs same
    cases same
    decide

theorem stops_members (level : Nat) (members : List (Text × Value)) (rest : List Char) :
    Stops (Printer.indentedMembers level members ++ (Printer.newline level ++ rest)) := by
  cases members with
  | nil => exact stops_newline level rest
  | cons member members =>
    intro c cs same
    cases same
    decide

/-! Documents. Two steps of the reader fall to each printed character at most. -/

/-- The printed value is read back, at any level and before anything that ends a numeral. -/
def Reads (v : Value) : Prop :=
  ∀ (level fuel : Nat) (cs rest : List Char), Stops rest →
    2 * (Printer.indented level v).length ≤ fuel →
    skipSpace cs = Printer.indented level v ++ rest → value? fuel cs = some (v, rest)

/-- One step of the reader is left for a value. -/
theorem fuel_eq_succ {v : Value} (wellFormed : v.WellFormed) {level fuel : Nat}
    (enough : 2 * (Printer.indented level v).length ≤ fuel) : ∃ more, fuel = more + 1 := by
  obtain ⟨c, cs, same, -⟩ := indented_eq_cons wellFormed level
  rw [same, List.length_cons] at enough
  exact Nat.exists_eq_add_one_of_ne_zero (by omega)

theorem reads_numeral {n : Numeral} (wellFormed : n.WellFormed) : Reads (.number n) := by
  intro level fuel cs rest stops enough start
  obtain ⟨fuel, rfl⟩ := fuel_eq_succ (v := .number n) wellFormed enough
  obtain ⟨c, tail, same, numeric⟩ := numeral_eq_cons wellFormed
  have read := numeral?_numeral wellFormed stops
  rw [Printer.indented, same, List.cons_append] at start
  rw [same, List.cons_append] at read
  have apart := numeric.apart
  unfold value?
  rw [start]
  split
  · next h => exact absurd (List.cons.inj h).1 (apart 'n' (by decide) (by decide))
  · next h => exact absurd (List.cons.inj h).1 (apart 't' (by decide) (by decide))
  · next h => exact absurd (List.cons.inj h).1 (apart 'f' (by decide) (by decide))
  · next h => exact absurd (List.cons.inj h).1 (apart '"' (by decide) (by decide))
  · next h => exact absurd (List.cons.inj h).1 (apart '[' (by decide) (by decide))
  · next h => exact absurd (List.cons.inj h).1 (apart '\x7b' (by decide) (by decide))
  · rw [read]
    rfl

/-- The items of an array, the first of which is read back. -/
theorem reads_array {item : Value} {items : List Value} (wellFormed : item.WellFormed)
    (list : ∀ (level fuel : Nat) (cs rest : List Char),
      2 * ((Printer.indented (level + 1) item).length + (Printer.indentedItems level items).length)
        + 1 ≤ fuel →
      skipSpace cs = Printer.indented (level + 1) item ++
        (Printer.indentedItems level items ++ (Printer.newline level ++ ']' :: rest)) →
      items? fuel cs = some (item :: items, rest)) : Reads (.array (item :: items)) := by
  intro level fuel cs rest _ enough start
  simp only [Printer.indented, List.cons_append, List.append_assoc, List.nil_append] at start
  simp only [Printer.indented, List.length_cons, List.length_append] at enough
  obtain ⟨fuel, rfl⟩ : ∃ more, fuel = more + 1 := Nat.exists_eq_add_one_of_ne_zero (by omega)
  have first := skipSpace_indented wellFormed (level + 1)
    (Printer.indentedItems level items ++ (Printer.newline level ++ ']' :: rest))
  have read := list level fuel _ rest (by omega) first
  obtain ⟨c, tail, same, -, open'⟩ := indented_eq_cons wellFormed (level + 1)
  rw [same, List.cons_append] at first read
  unfold value?
  rw [start]
  simp only [skipSpace_newline, same, List.cons_append, first]
  split
  · next h => exact absurd (List.cons.inj h).1 open'
  · rw [read]
    rfl

/-- The members of an object, the value of the first of which is read back. -/
theorem reads_object {name : String} {value : Value} {members : List (Text × Value)}
    (list : ∀ (level fuel : Nat) (cs rest : List Char),
      2 * ((Printer.indented (level + 1) value).length
        + (Printer.indentedMembers level members).length) + 1 ≤ fuel →
      skipSpace cs = '"' :: (name.toList.flatMap Printer.escape ++ ('"' :: ':' :: ' ' ::
        (Printer.indented (level + 1) value ++ (Printer.indentedMembers level members ++
          (Printer.newline level ++ '\x7d' :: rest))))) →
      members? fuel cs = some ((some name, value) :: members, rest)) :
    Reads (.object ((some name, value) :: members)) := by
  intro level fuel cs rest _ enough start
  simp only [Printer.indented, Printer.text, Option.getD_some, List.cons_append, List.append_assoc,
    List.nil_append] at start
  simp only [Printer.indented, List.length_cons, List.length_append] at enough
  obtain ⟨fuel, rfl⟩ : ∃ more, fuel = more + 1 := Nat.exists_eq_add_one_of_ne_zero (by omega)
  have quote : ∀ cs, skipSpace ('"' :: cs) = '"' :: cs := fun cs => skipSpace_cons cs (by decide)
  have read := list level fuel _ rest (by omega) (quote _)
  unfold value?
  rw [start]
  simp only [skipSpace_newline, quote]
  split
  · next h => exact absurd (List.cons.inj h).1 (by decide)
  · rw [read]
    rfl

mutual

theorem value?_indented : ∀ v : Value, v.WellFormed → Reads v
  | .null, wellFormed => by
    intro level fuel cs rest _ enough start
    obtain ⟨fuel, rfl⟩ := fuel_eq_succ wellFormed enough
    unfold value?
    rw [start]
    rfl
  | .bool true, wellFormed => by
    intro level fuel cs rest _ enough start
    obtain ⟨fuel, rfl⟩ := fuel_eq_succ wellFormed enough
    unfold value?
    rw [start]
    rfl
  | .bool false, wellFormed => by
    intro level fuel cs rest _ enough start
    obtain ⟨fuel, rfl⟩ := fuel_eq_succ wellFormed enough
    unfold value?
    rw [start]
    rfl
  | .number n, wellFormed => reads_numeral wellFormed
  | .string none, wellFormed => nomatch wellFormed
  | .string (some s), wellFormed => by
    intro level fuel cs rest _ enough start
    obtain ⟨fuel, rfl⟩ := fuel_eq_succ wellFormed enough
    unfold value?
    rw [start]
    simp only [Printer.indented, Printer.text, Option.getD_some, List.cons_append,
      List.append_assoc, List.nil_append, text?_text, Option.map_some]
  | .array [], wellFormed => by
    intro level fuel cs rest _ enough start
    obtain ⟨fuel, rfl⟩ := fuel_eq_succ wellFormed enough
    unfold value?
    rw [start]
    rfl
  | .array (item :: items), ⟨here, later⟩ =>
    reads_array here (items?_indented items later item here (value?_indented item here))
  | .object [], wellFormed => by
    intro level fuel cs rest _ enough start
    obtain ⟨fuel, rfl⟩ := fuel_eq_succ wellFormed enough
    unfold value?
    rw [start]
    rfl
  | .object ((none, _) :: _), ⟨named, _⟩ => nomatch named
  | .object ((some name, value) :: members), ⟨_, here, later⟩ =>
    reads_object (members?_indented members later name value here (value?_indented value here))

/-- An item and those after it, up to the closing bracket. -/
theorem items?_indented : ∀ items : List Value, WellFormedItems items → ∀ item : Value,
    item.WellFormed → Reads item → ∀ (level fuel : Nat) (cs rest : List Char),
    2 * ((Printer.indented (level + 1) item).length + (Printer.indentedItems level items).length)
      + 1 ≤ fuel →
    skipSpace cs = Printer.indented (level + 1) item ++
      (Printer.indentedItems level items ++ (Printer.newline level ++ ']' :: rest)) →
    items? fuel cs = some (item :: items, rest)
  | [], _, item, wellFormed, reads => by
    intro level fuel cs rest enough start
    obtain ⟨fuel, rfl⟩ : ∃ more, fuel = more + 1 := Nat.exists_eq_add_one_of_ne_zero (by omega)
    have read := reads _ fuel cs _ (stops_items level [] (']' :: rest)) (by omega) start
    unfold items?
    simp only [read, Printer.indentedItems, List.nil_append, Option.bind_eq_bind,
      Option.bind_some, skipSpace_newline]
    rfl
  | next :: items, ⟨here, later⟩, item, wellFormed, reads => by
    intro level fuel cs rest enough start
    obtain ⟨fuel, rfl⟩ : ∃ more, fuel = more + 1 := Nat.exists_eq_add_one_of_ne_zero (by omega)
    have read := reads _ fuel cs _ (stops_items level (next :: items) (']' :: rest)) (by omega) start
    simp only [Printer.indentedItems, List.length_cons, List.length_append] at enough
    have after := (skipSpace_newline (level + 1) _).trans (skipSpace_indented here (level + 1)
      (Printer.indentedItems level items ++ (Printer.newline level ++ ']' :: rest)))
    have others := items?_indented items later next here (value?_indented next here) level fuel _
      rest (by omega) after
    have comma : ∀ cs, skipSpace (',' :: cs) = ',' :: cs := fun cs => skipSpace_cons cs (by decide)
    unfold items?
    simp only [read, Printer.indentedItems, List.cons_append, List.append_assoc,
      Option.bind_eq_bind, Option.bind_some, comma, others]
    rfl

/-- A member and those after it, up to the closing brace. -/
theorem members?_indented : ∀ members : List (Text × Value), WellFormedMembers members →
    ∀ (name : String) (value : Value), value.WellFormed → Reads value →
    ∀ (level fuel : Nat) (cs rest : List Char),
    2 * ((Printer.indented (level + 1) value).length
      + (Printer.indentedMembers level members).length) + 1 ≤ fuel →
    skipSpace cs = '"' :: (name.toList.flatMap Printer.escape ++ ('"' :: ':' :: ' ' ::
      (Printer.indented (level + 1) value ++ (Printer.indentedMembers level members ++
        (Printer.newline level ++ '\x7d' :: rest))))) →
    members? fuel cs = some ((some name, value) :: members, rest)
  | [], _, name, value, wellFormed, reads => by
    intro level fuel cs rest enough start
    obtain ⟨fuel, rfl⟩ : ∃ more, fuel = more + 1 := Nat.exists_eq_add_one_of_ne_zero (by omega)
    have read := reads (level + 1) fuel (' ' :: _) _ (stops_members level [] ('\x7d' :: rest))
      (by omega) (skipSpace_indented wellFormed (level + 1) _)
    have colon : ∀ cs, skipSpace (':' :: cs) = ':' :: cs := fun cs => skipSpace_cons cs (by decide)
    unfold members?
    simp only [start, text?_text, Option.bind_eq_bind, Option.bind_some, colon, read]
    simp only [Printer.indentedMembers, List.nil_append, skipSpace_newline]
    rfl
  | (none, _) :: _, ⟨named, _⟩, _, _, _, _ => nomatch named
  | (some other, next) :: members, ⟨_, here, later⟩, name, value, wellFormed, reads => by
    intro level fuel cs rest enough start
    obtain ⟨fuel, rfl⟩ : ∃ more, fuel = more + 1 := Nat.exists_eq_add_one_of_ne_zero (by omega)
    have read := reads (level + 1) fuel (' ' :: _) _
      (stops_members level ((some other, next) :: members) ('\x7d' :: rest)) (by omega)
      (skipSpace_indented wellFormed (level + 1) _)
    simp only [Printer.indentedMembers, List.length_cons, List.length_append] at enough
    have after := skipSpace_newline (level + 1) ('"' :: (other.toList.flatMap Printer.escape ++
      ('"' :: ':' :: ' ' :: (Printer.indented (level + 1) next ++
        (Printer.indentedMembers level members ++ (Printer.newline level ++ '\x7d' :: rest))))))
    have others := members?_indented members later other next here (value?_indented next here) level
      fuel _ rest (by omega) (after.trans (skipSpace_cons _ (by decide)))
    have colon : ∀ cs, skipSpace (':' :: cs) = ':' :: cs := fun cs => skipSpace_cons cs (by decide)
    have comma : ∀ cs, skipSpace (',' :: cs) = ',' :: cs := fun cs => skipSpace_cons cs (by decide)
    unfold members?
    simp only [start, text?_text, Option.bind_eq_bind, Option.bind_some, colon, read]
    simp only [Printer.indentedMembers, Printer.text, Option.getD_some, List.cons_append,
      List.nil_append, List.append_assoc, comma, others]
    rfl

end

/-- Every printed document is read back. -/
theorem Value.parse?_indented {v : Value} (wellFormed : v.WellFormed) :
    Value.parse? v.indented = some v := by
  have read := value?_indented v wellFormed 0 (2 * (Printer.indented 0 v).length + 1)
    (Printer.indented 0 v) [] nofun (Nat.le_succ _)
    (by simpa using skipSpace_indented wellFormed 0 [])
  simp only [Value.parse?, Value.indented, String.toList_ofList, read]
  rfl

end RobotBlocks.Json
