import RobotBlocks.Proofs.Json.Decoding

/-! How deep a document nests and how wide its numbers are: a document fits when both are within
bounds. -/
namespace RobotBlocks.Json

mutual

/-- The levels of a document: it stands on the first one itself, and a container, empty or not,
opens one more. -/
def Value.depth : Value → Nat
  | .null | .bool _ | .number _ | .string _ => 1
  | .array items => itemsDepth items + 1
  | .object members => membersDepth members + 1

def itemsDepth : List Value → Nat
  | [] => 1
  | item :: items => max item.depth (itemsDepth items)

def membersDepth : List (Text × Value) → Nat
  | [] => 1
  | (_, value) :: members => max value.depth (membersDepth members)

end

mutual

/-- All numbers are naturals of 32 bits. -/
def Value.Narrow : Value → Prop
  | .null | .bool _ | .string _ => True
  | .number numeral => ∃ n, numeral.nat? = some n ∧ n < Nat.pow 2 32
  | .array items => NarrowItems items
  | .object members => NarrowMembers members

def NarrowItems : List Value → Prop
  | [] => True
  | item :: items => item.Narrow ∧ NarrowItems items

def NarrowMembers : List (Text × Value) → Prop
  | [] => True
  | (_, value) :: members => value.Narrow ∧ NarrowMembers members

end

theorem itemsDepth_le {items : List Value} {level : Nat} :
    itemsDepth items ≤ level ↔ 1 ≤ level ∧ ∀ item ∈ items, item.depth ≤ level := by
  induction items with
  | nil => simp [itemsDepth]
  | cons item items ih => rw [itemsDepth, Nat.max_le, ih, List.forall_mem_cons, and_left_comm]

theorem membersDepth_le {members : List (Text × Value)} {level : Nat} :
    membersDepth members ≤ level ↔ 1 ≤ level ∧ ∀ member ∈ members, member.2.depth ≤ level := by
  induction members with
  | nil => simp [membersDepth]
  | cons member members ih => rw [membersDepth, Nat.max_le, ih, List.forall_mem_cons, and_left_comm]

@[simp] theorem narrow_array {items : List Value} :
    (Value.array items).Narrow ↔ ∀ item ∈ items, item.Narrow := by
  change NarrowItems items ↔ _
  induction items with
  | nil => simp [NarrowItems]
  | cons item items ih => simp [NarrowItems, ih]

@[simp] theorem narrow_object {members : List (Text × Value)} :
    (Value.object members).Narrow ↔ ∀ member ∈ members, member.2.Narrow := by
  change NarrowMembers members ↔ _
  induction members with
  | nil => simp [NarrowMembers]
  | cons member members ih => simp [NarrowMembers, ih]

@[simp] theorem narrow_ofString (s : String) : (Value.ofString s).Narrow := trivial

@[simp] theorem narrow_bool (b : Bool) : (Value.bool b).Narrow := trivial

@[simp] theorem narrow_ofNat {n : Nat} : (Value.ofNat n).Narrow ↔ n < Nat.pow 2 32 := by
  simp [Value.ofNat, Value.Narrow, nat?_ofNat]

/-- A member is missing or narrow. -/
def NarrowSlot (slot : Option Value) : Prop := ∀ value ∈ slot, value.Narrow

@[simp] theorem narrowSlot_none : NarrowSlot none := nofun

@[simp] theorem narrowSlot_some {value : Value} : NarrowSlot (some value) ↔ value.Narrow := by
  simp [NarrowSlot]

@[simp] theorem narrowSlot_map {α : Type} {encode : α → Value} {x? : Option α} :
    NarrowSlot (x?.map encode) ↔ ∀ x ∈ x?, (encode x).Narrow := by
  cases x? <;> simp

/-- An object of members is narrow as its members are. -/
@[simp] theorem narrow_ofMembers {members : Members} :
    (Value.ofMembers members).Narrow ↔ ∀ entry ∈ members, NarrowSlot entry.2 := by
  rw [Value.ofMembers, narrow_object]
  constructor
  · intro narrow entry member value present
    refine narrow (some entry.1, value) (List.mem_filterMap.mpr ⟨entry, member, ?_⟩)
    obtain ⟨name, slot⟩ := entry
    exact Option.map_eq_some_iff.mpr ⟨value, present, rfl⟩
  · intro narrow entry member
    obtain ⟨slot, present, same⟩ := List.mem_filterMap.mp member
    obtain ⟨value, here, rfl⟩ := Option.map_eq_some_iff.mp same
    exact narrow slot present value here

/-- The levels below a document are spent one at a container. -/
theorem fits_iff {level : Nat} {value : Value} :
    fits level value = true ↔ value.depth ≤ level + 1 ∧ value.Narrow := by
  induction level generalizing value with
  | zero =>
    cases value with
    | array items =>
      have deep : ¬ itemsDepth items ≤ 0 := fun low => absurd (itemsDepth_le.mp low).1 (by decide)
      simp [fits, Value.depth, deep]
    | object members =>
      have deep : ¬ membersDepth members ≤ 0 := fun low => absurd (membersDepth_le.mp low).1 (by decide)
      simp [fits, Value.depth, deep]
    | _ => simp [fits, Value.depth, Value.Narrow, Option.any_eq_true]
  | succ level ih =>
    cases value with
    | array items =>
      simp only [fits, Value.depth, List.all_eq_true, ih, narrow_array, Nat.add_le_add_iff_right,
        itemsDepth_le, Nat.le_add_left, true_and]
      exact forall₂_and
    | object members =>
      simp only [fits, Value.depth, List.all_eq_true, ih, narrow_object, Nat.add_le_add_iff_right,
        membersDepth_le, Nat.le_add_left, true_and]
      exact forall₂_and
    | _ => simp [fits, Value.depth, Value.Narrow, Option.any_eq_true]

end RobotBlocks.Json
