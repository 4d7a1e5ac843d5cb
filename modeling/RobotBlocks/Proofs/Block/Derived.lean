import Mathlib.Data.List.Nodup
import RobotBlocks.Block.Basic

/-! The part of a block that follows from its kind and state. No edit takes a field away, so a
block keeps the fields that its kind and state give a fresh one. -/
namespace RobotBlocks

namespace Labelled

variable {α : Type}

def labels (entries : Labelled α) : List String := entries.map (·.1)

theorem labels_append (entries more : Labelled α) :
    labels (entries ++ more) = entries.labels ++ more.labels :=
  List.map_append

theorem get?_isSome_iff {entries : Labelled α} {label : String} :
    (entries.get? label).isSome ↔ label ∈ entries.labels := by
  induction entries with
  | nil => simp [get?, labels]
  | cons entry rest ih =>
    obtain ⟨name, value⟩ := entry
    by_cases here : name = label
    · simp [get?, labels, here]
    · simpa [get?, labels, here, Ne.symm here] using ih
theorem get?_eq_none {entries : Labelled α} {label : String} (unknown : label ∉ entries.labels) :
    entries.get? label = none := by
  rw [← get?_isSome_iff] at unknown
  simpa using unknown

theorem get?_eq_of_mem {entries : Labelled α} (distinct : entries.labels.Nodup)
    {name : String} {value : α} (member : (name, value) ∈ entries) :
    entries.get? name = some value := by
  induction entries with
  | nil => cases member
  | cons entry entries ih =>
    obtain ⟨other, old⟩ := entry
    obtain ⟨outside, distinct⟩ := List.nodup_cons.mp distinct
    rcases List.mem_cons.mp member with same | later
    · cases same
      simp [get?]
    · have apart : other ≠ name := by
        rintro rfl
        exact outside (List.mem_map.mpr ⟨_, later, rfl⟩)
      rw [get?, if_neg apart]
      exact ih distinct later

theorem put_of_unknown {entries : Labelled α} {label : String} (unknown : label ∉ entries.labels)
    (value : α) : entries.put label value = entries ++ [(label, value)] := by
  induction entries with
  | nil => rfl
  | cons entry rest ih =>
    obtain ⟨name, old⟩ := entry
    have other : name ≠ label := fun same => unknown (same ▸ List.mem_cons_self ..)
    rw [put, if_neg other, ih fun member => unknown (List.mem_cons_of_mem _ member)]
    rfl

theorem labels_put (entries : Labelled α) (label : String) (value : α) :
    (entries.put label value).labels
      = if label ∈ entries.labels then entries.labels else entries.labels ++ [label] := by
  induction entries with
  | nil => simp [put, labels]
  | cons entry rest ih =>
    obtain ⟨name, old⟩ := entry
    simp only [labels] at ih
    by_cases here : name = label
    · simp [put, labels, here]
    · simp only [put, labels, if_neg here, List.map_cons, ih, List.mem_cons, Ne.symm here, false_or]
      split <;> simp_all

theorem subset_labels_put (entries : Labelled α) (label : String) (value : α) :
    entries.labels ⊆ (entries.put label value).labels := by
  rw [labels_put]
  split
  · exact List.Subset.refl _
  · exact List.subset_append_left ..

/-- Adding entries whose labels are all known changes nothing. -/
theorem foldl_putNew_of_known {entries more : Labelled α} (known : more.labels ⊆ entries.labels) :
    more.foldl (fun all (name, value) => all.putNew name value) entries = entries := by
  induction more with
  | nil => rfl
  | cons entry rest ih =>
    obtain ⟨name, value⟩ := entry
    have here : name ∈ entries.labels := known (List.mem_cons_self ..)
    obtain ⟨old, found⟩ := Option.isSome_iff_exists.mp (get?_isSome_iff.mpr here)
    have unchanged : entries.putNew name value = entries := by simp [putNew, found]
    simp only [List.foldl_cons, unchanged]
    exact ih fun _ member => known (List.mem_cons_of_mem _ member)

/-- Adding entries under new labels takes no label away and lets every label in. -/
theorem labels_foldl_putNew (entries more : Labelled α) (label : String) :
    label ∈ (more.foldl (fun all (name, value) => all.putNew name value) entries).labels
      ↔ label ∈ entries.labels ∨ label ∈ more.labels := by
  induction more generalizing entries with
  | nil => simp [labels]
  | cons entry rest ih =>
    obtain ⟨name, value⟩ := entry
    have one : label ∈ (entries.putNew name value).labels ↔ label ∈ entries.labels ∨ name = label := by
      rw [← get?_isSome_iff, get?_putNew, Option.isSome_or, Bool.or_eq_true, get?_isSome_iff]
      by_cases here : name = label <;> simp [here]
    simp only [List.foldl_cons, ih, one]
    simp [labels, or_assoc, eq_comm]

end Labelled

/-! Names of sockets. -/

theorem toString_injective : Function.Injective (toString : Nat → String) := by
  intro m n same
  have digits : Nat.toDigits 10 m = Nat.toDigits 10 n := by
    simpa [← String.toList_inj] using same
  rw [← Nat.ofDigitChars_ten_toDigits (n := m), digits, Nat.ofDigitChars_ten_toDigits]

theorem Socket.arg_injective : Function.Injective Socket.arg := by
  intro m n same
  exact toString_injective ((String.append_right_inj "ARG").mp same)

theorem Field.param_injective : Function.Injective Field.param := by
  intro m n same
  exact toString_injective ((String.append_right_inj Field.paramStem).mp same)

/-- No kind and state declare one socket twice. -/
theorem Socket.declared_nodup (kind : Kind) (extra : ExtraState) :
    ((Socket.declared kind extra).map (·.name)).Nodup := by
  cases kind with
  | methodCall =>
    simp only [Socket.declared, List.map_map]
    exact List.Nodup.map Socket.arg_injective List.nodup_range
  | _ => simp [Socket.declared, Socket.mechanisms, Socket.components, Socket.events]

/-- An argument socket is a value socket of a call. -/
theorem Socket.of_arg {kind : Kind} {extra : ExtraState} {socket : Socket} {i : Nat}
    (member : socket ∈ declared kind extra) (named : socket.name = arg i) :
    kind = .methodCall ∧ socket = ⟨arg i, .value⟩ := by
  have first := congrArg String.toList named
  cases kind with
  | methodCall =>
    simp only [declared, List.mem_map] at member
    obtain ⟨j, -, rfl⟩ := member
    exact ⟨rfl, by rw [← named]⟩
  | componentHolder =>
    simp only [declared, List.mem_cons, List.not_mem_nil, or_false] at member
    rcases member with rfl | rfl | rfl <;>
      simp [arg, mechanisms, components, events] at first
  | methodDef | eventHandler | paramContainer =>
    cases List.mem_singleton.mp member
    simp [arg, stack] at first
  | _ => cases member

/-- A call alone has value sockets, and they are those of its arguments. -/
theorem Socket.arg_of_value {kind : Kind} {extra : ExtraState} {name : String}
    (member : ⟨name, .value⟩ ∈ declared kind extra) : ∃ i, name = arg i := by
  cases kind with
  | methodCall =>
    simp only [declared, List.mem_map] at member
    obtain ⟨i, -, same⟩ := member
    cases same
    exact ⟨i, rfl⟩
  | _ => simp [declared] at member

namespace Field

theorem isParam_param (index : Nat) : isParam (param index) = true := by
  simp [isParam, param, List.isPrefixOf_iff_prefix]

end Field

namespace Block

variable {block : Block} {id : BlockId} {kind : Kind} {extra : ExtraState}

@[simp] theorem id_showParams (block : Block) : block.showParams.id = block.id := by
  unfold showParams
  split <;> rfl

@[simp] theorem kind_showParams (block : Block) : block.showParams.kind = block.kind := by
  unfold showParams
  split <;> rfl

@[simp] theorem extra_showParams (block : Block) : block.showParams.extra = block.extra := by
  unfold showParams
  split <;> rfl

@[simp] theorem sockets_showParams (block : Block) : block.showParams.sockets = block.sockets := by
  unfold showParams
  split <;> rfl

@[simp] theorem warning_showParams (block : Block) : block.showParams.warning = block.warning := by
  unfold showParams
  split <;> rfl

section Fresh

variable (id kind extra)

@[simp] theorem id_create : (create id kind extra).id = id := by simp [create, withExtra]
@[simp] theorem kind_create : (create id kind extra).kind = kind := by simp [create, withExtra]
@[simp] theorem extra_create : (create id kind extra).extra = extra := by simp [create, withExtra]

@[simp] theorem sockets_create : (create id kind extra).sockets = Socket.declared kind extra := by
  simp [create, withExtra]

@[simp] theorem warning_create : (create id kind extra).warning = none := by
  simp [create, withExtra]

end Fresh

theorem labels_paramFields (index : Nat) (params : List Parameter) :
    (paramFields index params).labels = (List.range' index params.length).map Field.param := by
  induction params generalizing index with
  | nil => rfl
  | cons param params ih =>
    have rest := ih (index + 1)
    simp only [Labelled.labels] at rest
    simp [paramFields, Labelled.labels, List.range'_succ, rest]

theorem defaultFields_not_param (kind : Kind) :
    ∀ entry ∈ defaultFields kind, Field.isParam entry.1 = false := by
  cases kind <;> decide

/-- A fresh block shows the fields of its kind, then the parameters that its state declares. -/
theorem fields_create (id : BlockId) (kind : Kind) (extra : ExtraState) :
    (create id kind extra).fields = defaultFields kind ++ paramFields 0 (extra.params?.getD []) := by
  unfold create withExtra showParams
  cases extra.params? with
  | none => simp [paramFields]
  | some params =>
    have kept : (defaultFields kind).filter (fun entry => !Field.isParam entry.1)
        = defaultFields kind := by
      apply List.filter_eq_self.mpr
      intro entry member
      simp [defaultFields_not_param kind entry member]
    change (defaultFields kind).filter (fun entry => !Field.isParam entry.1) ++ paramFields 0 params = _
    rw [kept, Option.getD_some]

/-- The sockets are those that kind and state declare, and of the fields that kind and state give
a fresh block none is missing. -/
structure Derived (block : Block) : Prop where
  sockets : block.sockets = Socket.declared block.kind block.extra
  defaults : (defaultFields block.kind).labels ⊆ block.fields.labels
  shown : (paramFields 0 (block.extra.params?.getD [])).labels ⊆ block.fields.labels

/-- Showing the parameters takes only older parameter fields away. -/
theorem field_mem_showParams {name : String} (known : name ∈ block.fields.labels)
    (other : Field.isParam name = false) : name ∈ block.showParams.fields.labels := by
  unfold showParams
  split
  · exact known
  · obtain ⟨entry, member, rfl⟩ := List.mem_map.mp known
    exact List.mem_map_of_mem (List.mem_append_left _ (List.mem_filter.mpr ⟨member, by simp [other]⟩))

theorem shown_showParams (block : Block) :
    (paramFields 0 (block.extra.params?.getD [])).labels ⊆ block.showParams.fields.labels := by
  unfold showParams
  split
  · next undeclared => simp [undeclared, paramFields, Labelled.labels]
  · next params declared =>
    simp only [declared, Option.getD_some, Labelled.labels_append]
    exact List.subset_append_right ..

theorem Derived.showParams
    (sockets : block.sockets = Socket.declared block.kind block.extra)
    (defaults : (defaultFields block.kind).labels ⊆ block.fields.labels) :
    block.showParams.Derived where
  sockets := by simpa using sockets
  defaults := by
    intro name member
    obtain ⟨entry, own, rfl⟩ := List.mem_map.mp member
    simp only [kind_showParams] at own
    exact field_mem_showParams (defaults (List.mem_map_of_mem own))
      (defaultFields_not_param block.kind entry own)
  shown := by simpa using shown_showParams block

theorem Derived.withExtra (derived : block.Derived) (extra : ExtraState) :
    (block.withExtra extra).Derived :=
  Derived.showParams rfl derived.defaults

theorem create_derived (id : BlockId) (kind : Kind) (extra : ExtraState) :
    (create id kind extra).Derived :=
  Derived.showParams rfl (List.Subset.refl _)

theorem Derived.put (derived : block.Derived) (name value : String) :
    ({ block with fields := block.fields.put name value } : Block).Derived where
  sockets := derived.sockets
  defaults := List.Subset.trans derived.defaults (Labelled.subset_labels_put ..)
  shown := List.Subset.trans derived.shown (Labelled.subset_labels_put ..)

/-- New parameters need new parameter fields; the sockets of a declaration do not depend on
them. -/
theorem Derived.withParams (derived : block.Derived) (params : List Parameter) :
    ({ block with extra := block.extra.withParams params } : Block).showParams.Derived := by
  refine Derived.showParams ?_ derived.defaults
  have same : (block.extra.withParams params).call? = block.extra.call? := by
    cases block.extra <;> rfl
  have declared := derived.sockets
  unfold Socket.declared at declared ⊢
  simpa only [same] using declared

theorem Derived.warn (derived : block.Derived) (warning : Option String) :
    ({ block with warning } : Block).Derived :=
  ⟨derived.sockets, derived.defaults, derived.shown⟩

/-- Sockets that a kind and a state ask for are found by their names. -/
theorem socket?_of_declared {kind : Kind} {extra : ExtraState} (asked : block.sockets = Socket.declared kind extra)
    {socket : Socket} (member : socket ∈ block.sockets) : block.socket? socket.name = some socket := by
  have nodup : (block.sockets.map (·.name)).Nodup := asked ▸ Socket.declared_nodup kind extra
  have exist : (block.socket? socket.name).isSome := by
    rw [socket?, List.find?_isSome]
    exact ⟨socket, member, by simp⟩
  obtain ⟨first, same⟩ := Option.isSome_iff_exists.mp exist
  have named : first.name = socket.name := by simpa using List.find?_some same
  rw [same, List.inj_on_of_nodup_map nodup (List.mem_of_find?_eq_some same) member named]

theorem Derived.nodup (derived : block.Derived) : (block.sockets.map (·.name)).Nodup :=
  derived.sockets ▸ Socket.declared_nodup block.kind block.extra

theorem Derived.socket?_of_mem (derived : block.Derived) {socket : Socket}
    (member : socket ∈ block.sockets) : block.socket? socket.name = some socket :=
  socket?_of_declared derived.sockets member

/-- A derived block is what its stored parts are rebuilt to, its warning apart. -/
theorem Derived.rebuild (derived : block.Derived) :
    (create block.id block.kind block.extra).fields.foldl
      (fun all (name, value) => all.putNew name value) block.fields = block.fields := by
  apply Labelled.foldl_putNew_of_known
  rw [fields_create, Labelled.labels_append]
  exact List.append_subset.mpr ⟨derived.defaults, derived.shown⟩

/-- A fresh block under stored fields lacks nothing once its own fields are among them. -/
theorem derived_of_fields {fields : Labelled String}
    (sub : (create id kind extra).fields.labels ⊆ fields.labels) :
    ({ create id kind extra with fields } : Block).Derived := by
  rw [fields_create, Labelled.labels_append] at sub
  obtain ⟨defaults, shown⟩ := List.append_subset.mp sub
  exact ⟨by simp, by simpa using defaults, by simpa using shown⟩

end Block
end RobotBlocks
