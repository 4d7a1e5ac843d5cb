import RobotBlocks.Json.Decoder
import RobotBlocks.Proofs.Block.Derived
import RobotBlocks.Proofs.Json.RoundTrip

/-! Decoding what was encoded. A document fits when it nests no deeper than the levels and its
numbers are of 32 bits; a decoder reads a fitting document and refuses every other one. -/
namespace RobotBlocks.Json

open Decoder

/-- Whether a document opens no more levels of containers and holds numbers of 32 bits alone. -/
def fits : Nat → Value → Bool
  | _, .number numeral => numeral.nat?.any fun n => n < Nat.pow 2 32
  | level + 1, .array items => items.all (fits level)
  | level + 1, .object members => members.all fun (_, value) => fits level value
  | 0, .array _ | 0, .object _ => false
  | _, .null | _, .bool _ | _, .string _ => true

/-- The value stores a datum: the decoder reads it back exactly when the value fits. -/
structure Stores {α : Type} (decode : Decoder α) (value : Value) (x : α) : Prop where
  wellFormed : value.WellFormed
  decodes : ∀ level, decode level value = if fits level value then some x else none

/-- A member is missing or well-formed. -/
def WellFormedSlot (slot : Option Value) : Prop := ∀ value, slot = some value → value.WellFormed

/-- The same of a member that may be missing. -/
structure Fills {α : Type} (read : Nat → Option Value → Option α) (slot : Option Value) (x : α) :
    Prop where
  wellFormed : WellFormedSlot slot
  reads : ∀ level, read level slot = if slot.all (fits level) then some x else none

variable {α β : Type}

/-! Guarded results. -/

theorem guard_bind {p : Bool} {a : α} {f : α → Option β} :
    (if p then some a else none).bind f = if p then f a else none := by
  cases p <;> rfl

theorem guard_map {p : Bool} {a : α} {f : α → β} :
    (if p then some a else none).map f = if p then some (f a) else none := by
  cases p <;> rfl

theorem guard_guard {p q : Bool} {a : Option α} :
    (if p then if q then a else none else none) = if p && q then a else none := by
  cases p <;> rfl

/-! Single values. -/

theorem stores_string (s : String) : Stores string (.ofString s) s where
  wellFormed := rfl
  decodes level := by cases level <;> rfl

theorem stores_bool (b : Bool) : Stores Decoder.bool (.bool b) b where
  wellFormed := trivial
  decodes level := by cases level <;> rfl

theorem nat?_ofNat (n : Nat) : (Numeral.ofNat n).nat? = some n :=
  congrArg some (ofDigits_toDigits n)

theorem fits_ofNat (level n : Nat) : fits level (.ofNat n) = decide (n < Nat.pow 2 32) := by
  cases level <;> simp [fits, Value.ofNat, nat?_ofNat]

theorem stores_nat (n : Nat) : Stores (natBelow (Nat.pow 2 32)) (.ofNat n) n where
  wellFormed := Numeral.wellFormed_ofNat n
  decodes level := by
    rw [fits_ofNat]
    by_cases small : n < Nat.pow 2 32
    · simp only [natBelow, Value.ofNat, nat?_ofNat, Option.filter_some, small, decide_true, if_true]
    · simp only [natBelow, Value.ofNat, nat?_ofNat, Option.filter_some, small, decide_false,
        Bool.false_eq_true, if_false]

theorem stores_name {ofName? : String → Option α} {name : String} {x : α}
    (known : ofName? name = some x) : Stores (Decoder.name ofName?) (.ofString name) x where
  wellFormed := rfl
  decodes level := by cases level <;> simpa [Decoder.name, Value.ofString, fits] using known

namespace Stores

variable {decode : Decoder α} {value : Value} {x : α}

theorem map {f : α → β} (stores : Stores decode value x) :
    Stores (fun level value => (decode level value).map f) value (f x) where
  wellFormed := stores.wellFormed
  decodes level := by rw [stores.decodes, guard_map]

theorem optional (stores : Stores decode value x) (present : value ≠ .null) :
    Stores (optional decode) value (some x) where
  wellFormed := stores.wellFormed
  decodes level := by
    rw [Decoder.optional, stores.decodes, guard_map]
    exact fun null => present null

/-- Items that are stored one by one. -/
theorem list {encode : α → Value} {xs : List α} (each : ∀ x ∈ xs, Stores decode (encode x) x) :
    Stores (Decoder.list decode) (.array (xs.map encode)) xs := by
  have items : WellFormedItems (xs.map encode) ∧ ∀ level, (xs.map encode).mapM (decode level)
      = if (xs.map encode).all (fits level) then some xs else none := by
    induction xs with
    | nil => exact ⟨trivial, fun _ => rfl⟩
    | cons x xs ih =>
      obtain ⟨wellFormed, decodes⟩ := ih fun other member => each other (List.mem_cons_of_mem _ member)
      have here := each x (List.mem_cons_self ..)
      refine ⟨⟨here.wellFormed, wellFormed⟩, fun level => ?_⟩
      rw [List.map_cons, List.mapM_cons, here.decodes, decodes]
      simp only [Option.bind_eq_bind, guard_bind, guard_guard, List.all_cons, pure]
      rfl
  refine ⟨items.1, fun level => ?_⟩
  cases level with
  | zero => rfl
  | succ level => exact items.2 level

end Stores

/-! Members. -/

namespace Fills

variable {decode : Decoder α} {value : Value} {x : α}

theorem required (stores : Stores decode value x) : Fills (required decode) (some value) x where
  wellFormed := by
    rintro _ ⟨⟩
    exact stores.wellFormed
  reads := stores.decodes

theorem defaulted (stores : Stores decode value x) (default : α) :
    Fills (defaulted decode default) (some value) x where
  wellFormed := by
    rintro _ ⟨⟩
    exact stores.wellFormed
  reads := stores.decodes

theorem missing (default : α) : Fills (Decoder.defaulted decode default) none default where
  wellFormed _ none := nomatch none
  reads _ := rfl

/-- A member that is left out when there is nothing to say. -/
theorem optional {encode : α → Value} (each : ∀ x, Stores decode (encode x) x)
    (present : ∀ x, encode x ≠ .null) (x? : Option α) :
    Fills (Decoder.defaulted (Decoder.optional decode) none) (x?.map encode) x? := by
  cases x? with
  | none => exact missing none
  | some x => exact defaulted ((each x).optional (present x)) none

end Fills

/-- The members of an object, each present or not. -/
abbrev Members := Labelled (Option Value)

namespace Members

variable {members : Members}

theorem wellFormed (each : ∀ entry ∈ members, WellFormedSlot entry.2) :
    (Value.ofMembers members).WellFormed := by
  change WellFormedMembers _
  induction members with
  | nil => trivial
  | cons entry members ih =>
    obtain ⟨name, slot⟩ := entry
    have later := ih fun other member => each other (List.mem_cons_of_mem _ member)
    cases slot with
    | none => exact later
    | some value => exact ⟨rfl, each _ (List.mem_cons_self ..) value rfl, later⟩

theorem fits_ofMembers (level : Nat) (members : Members) :
    fits (level + 1) (.ofMembers members) = members.all fun (_, slot) => slot.all (fits level) := by
  simp only [fits, Value.ofMembers]
  induction members with
  | nil => rfl
  | cons entry members ih =>
    obtain ⟨name, slot⟩ := entry
    cases slot with
    | none => exact ih
    | some value => exact congrArg (fits level value && ·) ih

/-- Under distinct names at most one member has a given name. -/
theorem filter_ofMembers (distinct : members.labels.Nodup) (name : String) :
    (members.filterMap fun (name, value?) => value?.map fun value => (some name, value)).filter
        (fun (other, _) => other = some name)
      = ((members.get? name).join.map fun value => (some name, value)).toList := by
  induction members with
  | nil => rfl
  | cons entry members ih =>
    obtain ⟨other, slot⟩ := entry
    obtain ⟨outside, distinct⟩ := List.nodup_cons.mp distinct
    have later := ih distinct
    by_cases here : other = name
    · subst here
      rw [Labelled.get?_eq_none outside] at later
      cases slot with
      | none => simpa [Labelled.get?] using later
      | some value => simpa [Labelled.get?] using later
    · cases slot with
      | none => simpa [Labelled.get?, here] using later
      | some value => simpa [Labelled.get?, here] using later

theorem slots?_ofMembers (distinct : members.labels.Nodup) (names : List String) :
    slots? names (.ofMembers members) = some (names.map fun name => (members.get? name).join) := by
  have named : (members.filterMap fun (name, value?) =>
      value?.map fun value => ((some name : Text), value)).all fun (name, _) => name.isSome := by
    rw [List.all_eq_true]
    intro member present
    obtain ⟨entry, -, same⟩ := List.mem_filterMap.mp present
    obtain ⟨value, -, rfl⟩ := Option.map_eq_some_iff.mp same
    rfl
  simp only [slots?, Value.ofMembers, named, if_true]
  induction names with
  | nil => rfl
  | cons name names ih =>
    rw [List.mapM_cons, ih, filter_ofMembers distinct, List.map_cons]
    cases (members.get? name).join <;> rfl

theorem slots?_of_labels {names : List String} (labels : members.labels = names)
    (distinct : names.Nodup) :
    slots? names (.ofMembers members) = some (members.map (·.2)) := by
  subst labels
  rw [slots?_ofMembers distinct, Labelled.labels, List.map_map]
  refine congrArg some (List.map_congr_left fun entry member => ?_)
  rw [Function.comp_apply, Labelled.get?_eq_of_mem distinct member]
  rfl

end Members

/-- A structure whose members stand in the order of their names. -/
theorem stores_record {names : List String} {build : Nat → List (Option Value) → Option α}
    {members : Members} {x : α} (labels : members.labels = names) (distinct : names.Nodup)
    (each : ∀ entry ∈ members, WellFormedSlot entry.2)
    (built : ∀ level, build level (members.map (·.2))
      = if members.all fun (_, slot) => slot.all (fits level) then some x else none) :
    Stores (record names build) (.ofMembers members) x where
  wellFormed := Members.wellFormed each
  decodes level := by
    cases level with
    | zero => rfl
    | succ level =>
      rw [record, Members.slots?_of_labels labels distinct, Option.bind_some, built,
        Members.fits_ofMembers]

/-! Labelled values. -/

theorem ofPairs_of_nodup {entries : Labelled α} (distinct : entries.labels.Nodup) :
    Labelled.ofPairs entries = entries := by
  have step : ∀ (rest before : Labelled α), (before ++ rest).labels.Nodup →
      rest.foldl (fun entries entry => entries.put entry.1 entry.2) before = before ++ rest := by
    intro rest
    induction rest with
    | nil => intro before _; simp
    | cons entry rest ih =>
      intro before distinct
      obtain ⟨label, value⟩ := entry
      have fresh : label ∉ before.labels := by
        rw [Labelled.labels_append] at distinct
        exact fun member => (List.disjoint_of_nodup_append distinct) member (List.mem_cons_self ..)
      rw [List.foldl_cons]
      dsimp only
      rw [Labelled.put_of_unknown fresh, ih, List.append_assoc]
      · rfl
      · simpa using distinct
  exact step entries [] (by simpa using distinct)

/-! Fitting documents are readable. -/

theorem takeDigits_of_small {n : Nat} {digits : List Char}
    (small : digits.foldl (fun n c => 10 * n + Decimal.digitValue c) n < Nat.pow 2 64) :
    takeDigits n digits = (digits.foldl (fun n c => 10 * n + Decimal.digitValue c) n, []) := by
  induction digits generalizing n with
  | nil => rfl
  | cons c digits ih =>
    have grows : ∀ (digits : List Char) (n : Nat),
        n ≤ digits.foldl (fun n c => 10 * n + Decimal.digitValue c) n := by
      intro digits
      induction digits with
      | nil => exact Nat.le_refl
      | cons c digits ih =>
        intro n
        refine Nat.le_trans ?_ (ih (10 * n + Decimal.digitValue c))
        omega
    have first : 10 * n + Decimal.digitValue c < Nat.pow 2 64 :=
      Nat.lt_of_le_of_lt (grows digits _) small
    rw [takeDigits, if_pos first]
    exact ih small

theorem outOfRange_of_nat? {numeral : Numeral} {n : Nat} (natural : numeral.nat? = some n)
    (small : n < Nat.pow 2 32) : numeral.outOfRange = false := by
  obtain ⟨negative, whole, fraction, exponent⟩ := numeral
  unfold Numeral.nat? at natural
  split at natural
  · next same =>
    cases same
    cases natural
    have taken : takeDigits 0 whole = (Decimal.ofDigits whole, []) :=
      takeDigits_of_small (Nat.lt_trans small (by decide))
    have exact : nearestDouble (Decimal.ofDigits whole) = Decimal.ofDigits whole :=
      if_pos (Nat.lt_trans small (by decide))
    have one : nearestDouble (Nat.pow 10 0) = 1 := by decide
    have product : ¬ Decimal.overflowBound
        ≤ nearestDouble (Decimal.ofDigits whole) * nearestDouble (Nat.pow 10 0) := by
      rw [exact, one, Nat.mul_one]
      exact Nat.not_le_of_lt (Nat.lt_trans small (by decide +kernel))
    simp only [Numeral.outOfRange, taken, Option.getD_none, takeDigits]
    change (decide (Decimal.ofDigits whole ≠ 0) && decide ((0 : Int) ≤ 0) && (decide ((308 : Int) < 0)
      || decide (Decimal.overflowBound
        ≤ nearestDouble (Decimal.ofDigits whole) * nearestDouble (Nat.pow 10 0)))) = false
    rw [decide_eq_false product]
    exact Bool.and_false _
  · cases natural

theorem wellFormedItems_iff {items : List Value} :
    WellFormedItems items ↔ ∀ item ∈ items, item.WellFormed := by
  induction items with
  | nil => simp [WellFormedItems]
  | cons item items ih => simp [WellFormedItems, ih]

theorem wellFormedMembers_iff {members : List (Text × Value)} :
    WellFormedMembers members
      ↔ ∀ member ∈ members, member.1.isSome = true ∧ member.2.WellFormed := by
  induction members with
  | nil => simp [WellFormedMembers]
  | cons member members ih => simp [WellFormedMembers, ih, and_assoc]

theorem readable_of_fits {level : Nat} {value : Value} (wellFormed : value.WellFormed)
    (fitting : fits level value = true) : readable level value = true := by
  induction level generalizing value with
  | zero =>
    cases value with
    | number numeral =>
      obtain ⟨n, natural, small⟩ := (Option.any_eq_true ..).mp fitting
      simpa [readable] using outOfRange_of_nat? natural (by simpa using small)
    | string text => exact wellFormed
    | null => rfl
    | bool _ => rfl
    | array _ => cases fitting
    | object _ => cases fitting
  | succ level ih =>
    cases value with
    | number numeral =>
      obtain ⟨n, natural, small⟩ := (Option.any_eq_true ..).mp fitting
      simpa [readable] using outOfRange_of_nat? natural (by simpa using small)
    | string text => exact wellFormed
    | null => rfl
    | bool _ => rfl
    | array items =>
      rw [readable, List.all_eq_true]
      intro item member
      exact ih (wellFormedItems_iff.mp wellFormed item member) (List.all_eq_true.mp fitting item member)
    | object members =>
      rw [readable, List.all_eq_true]
      intro member present
      obtain ⟨named, inner⟩ := wellFormedMembers_iff.mp wellFormed member present
      rw [Bool.and_eq_true]
      exact ⟨named, ih inner (List.all_eq_true.mp fitting member present)⟩

end RobotBlocks.Json
