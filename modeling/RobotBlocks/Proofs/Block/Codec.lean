import RobotBlocks.Block.Codec
import RobotBlocks.Proofs.Json.Decoding

/-! Ids, kinds, parameters and states are read back from their stored form. -/
namespace RobotBlocks

open Json Decoder

theorem BlockId.stores (id : BlockId) : Stores BlockId.decode id.encode id :=
  (stores_nat id.number).map

theorem Kind.stores (kind : Kind) : Stores Kind.decode kind.encode kind :=
  stores_name (by cases kind <;> rfl)

namespace Parameter

theorem stores (param : Parameter) : Stores decode param.encode param := by
  have name := Fills.required (stores_string param.name)
  have type := Fills.optional stores_string nofun param.type
  refine stores_record rfl (by decide) (by simp [name.wellFormed, type.wellFormed]) fun level => ?_
  simp only [List.map_cons, List.map_nil, name.reads, type.reads, Option.bind_eq_bind, guard_bind, guard_guard, pure,
    List.all_cons, List.all_nil, Bool.and_true]

theorem stores_list (params : List Parameter) : Stores decodeList (encodeList params) params :=
  .list fun param _ => param.stores

end Parameter

namespace Visibility

theorem stores (visibility : Visibility) : Stores decode visibility.encode visibility :=
  stores_name (by cases visibility <;> rfl)

theorem stores_in_state (visibility : Visibility) :
    Stores decodeInState visibility.encode visibility where
  wellFormed := visibility.stores.wellFormed
  decodes := visibility.stores.decodes

end Visibility

theorem MethodState.stores (state : MethodState) :
    Stores decode (.ofMembers (ExtraState.method state).members) state := by
  have params := Fills.defaulted (Parameter.stores_list state.params) []
  have returnType := Fills.optional stores_string nofun state.returnType
  have visibility := Fills.required state.visibility.stores_in_state
  refine stores_record rfl (by decide)
    (by simp [ExtraState.members, params.wellFormed, returnType.wellFormed, visibility.wellFormed])
    fun level => ?_
  simp only [ExtraState.members, List.map_cons, List.map_nil, params.reads, returnType.reads,
    visibility.reads, Option.bind_eq_bind, guard_bind, guard_guard, pure, List.all_cons, List.all_nil, Bool.and_true]

theorem ComponentState.stores (state : ComponentState) :
    Stores decode (.ofMembers (ExtraState.component state).members) state := by
  have className := Fills.required (stores_string state.className)
  have importModule := Fills.required (stores_string state.importModule)
  refine stores_record rfl (by decide)
    (by simp [ExtraState.members, className.wellFormed, importModule.wellFormed]) fun level => ?_
  simp only [ExtraState.members, List.map_cons, List.map_nil, className.reads, importModule.reads,
    Option.bind_eq_bind, guard_bind, guard_guard, pure, List.all_cons, List.all_nil, Bool.and_true]

theorem MechanismState.stores (state : MechanismState) :
    Stores decode (.ofMembers (ExtraState.mechanism state).members) state := by
  have className := Fills.required (stores_string state.className)
  have moduleName := Fills.required (stores_string state.moduleName)
  refine stores_record rfl (by decide)
    (by simp [ExtraState.members, className.wellFormed, moduleName.wellFormed]) fun level => ?_
  simp only [ExtraState.members, List.map_cons, List.map_nil, className.reads, moduleName.reads,
    Option.bind_eq_bind, guard_bind, guard_guard, pure, List.all_cons, List.all_nil, Bool.and_true]

/-! Calls. -/

/-- The members of a target are texts. -/
theorem CallTarget.text_of_mem {target : CallTarget} {entry : String × Option Value}
    (member : entry ∈ target.members) : ∃ s, entry.2 = some (.ofString s) := by
  cases target <;> simp [members] at member <;> grind


namespace CallState

theorem labels_nodup (call : CallState) : (Labelled.labels call.members).Nodup := by
  obtain ⟨target, name, args, returnType, declaration⟩ := call
  cases target <;> simp [members, CallTarget.members, Labelled.labels]

theorem get?_members (call : CallState) :
    Labelled.get? call.members "name" = some (some (.ofString call.name)) ∧
    Labelled.get? call.members "args" = some (some (Parameter.encodeList call.args)) ∧
    Labelled.get? call.members "return_type" = some (call.returnType.map .ofString) ∧
    Labelled.get? call.members "other_block_id" = some (call.declaration.map BlockId.encode) := by
  obtain ⟨target, name, args, returnType, declaration⟩ := call
  cases target <;> exact ⟨rfl, rfl, rfl, rfl⟩

theorem target_ofMembers (call : CallState) (level : Nat) :
    CallTarget.ofMembers? level (.ofMembers call.members) = some call.target := by
  have slots := Members.slots?_ofMembers call.labels_nodup
  unfold CallTarget.ofMembers?
  simp only [slots, List.map_cons, List.map_nil, Option.bind_eq_bind, Option.bind_some]
  obtain ⟨target, name, args, returnType, declaration⟩ := call
  cases target <;> rfl

theorem stores (call : CallState) : Stores decode (.ofMembers call.members) call := by
  have name := Fills.required (stores_string call.name)
  have args := Fills.defaulted (Parameter.stores_list call.args) []
  have returnType := Fills.optional stores_string nofun call.returnType
  have declaration := Fills.optional BlockId.stores nofun call.declaration
  obtain ⟨atName, atArgs, atReturn, atDeclaration⟩ := call.get?_members
  constructor
  · apply Members.wellFormed
    intro entry member
    rcases List.mem_append.mp member with own | other
    · obtain ⟨s, same⟩ := CallTarget.text_of_mem own
      rw [same]
      exact (Fills.required (stores_string s)).wellFormed
    · simp only [List.mem_cons, List.not_mem_nil, or_false] at other
      rcases other with rfl | rfl | rfl | rfl
      · exact name.wellFormed
      · exact args.wellFormed
      · exact returnType.wellFormed
      · exact declaration.wellFormed
  · intro level
    cases level with
    | zero => rfl
    | succ level =>
      have slots := Members.slots?_ofMembers call.labels_nodup
        ["name", "args", "return_type", "other_block_id"]
      have target := call.target_ofMembers level
      rw [Members.fits_ofMembers]
      simp only [Value.ofMembers] at slots target ⊢
      simp only [decode, slots, target, List.map_cons, List.map_nil, atName, atArgs, atReturn,
        atDeclaration, Option.join_some, Option.bind_eq_bind, Option.bind_some]
      have texts : (call.target.members.all fun entry => entry.2.all (fits level)) = true := by
        rw [List.all_eq_true]
        intro entry member
        obtain ⟨s, same⟩ := CallTarget.text_of_mem member
        cases level <;> simp [same, Value.ofString, fits]
      simp only [name.reads, args.reads, returnType.reads, declaration.reads, guard_bind,
        guard_guard, pure, members, List.all_append, texts, List.all_cons, List.all_nil,
        Bool.and_true, Bool.true_and]

end CallState

/-! States. -/

namespace ExtraState

theorem tag_not_mem (extra : ExtraState) : "state" ∉ Labelled.labels extra.members := by
  cases extra with
  | call call =>
    obtain ⟨target, name, args, returnType, declaration⟩ := call
    cases target <;> simp [members, CallState.members, CallTarget.members, Labelled.labels]
  | _ => simp [members, Labelled.labels]

theorem untag?_encode (extra : ExtraState) :
    untag? extra.encode = some (extra.tag, .ofMembers extra.members) := by
  have others : ∀ entry ∈ extra.members.filterMap (fun entry =>
      entry.2.map fun value => ((some entry.1 : Json.Text), value)), entry.1 ≠ some "state" := by
    intro entry member
    obtain ⟨⟨name, slot⟩, own, same⟩ := List.mem_filterMap.mp member
    obtain ⟨value, -, rfl⟩ := Option.map_eq_some_iff.mp same
    intro tagged
    cases tagged
    exact extra.tag_not_mem (List.mem_map.mpr ⟨_, own, rfl⟩)
  simp only [encode, Value.ofMembers, List.filterMap_cons, Option.map_some, Value.ofString, untag?,
    List.partition_eq_filter_filter]
  rw [List.filter_cons_of_pos (by simp), List.filter_eq_nil_iff.mpr (by simpa using others),
    List.filter_cons_of_neg (by simp), List.filter_eq_self.mpr (by simpa using others)]

theorem fits_encode (level : Nat) (extra : ExtraState) :
    fits level extra.encode = fits level (.ofMembers extra.members) := by
  cases level with
  | zero => rfl
  | succ level => cases level <;> rfl

theorem stores_tagged (extra : ExtraState) :
    Stores (fun level rest => decodeTagged level rest extra.tag) (.ofMembers extra.members) extra := by
  cases extra with
  | none => exact stores_record rfl (by decide) nofun fun _ => rfl
  | event params =>
    have slot := Fills.defaulted (Parameter.stores_list params) []
    refine stores_record rfl (by decide) (by simp [members, slot.wellFormed]) fun level => ?_
    simp only [members, List.map_cons, List.map_nil, slot.reads, guard_map, List.all_cons, List.all_nil,
      Bool.and_true]
  | method state => exact state.stores.map
  | call call => exact call.stores.map
  | component state => exact state.stores.map
  | mechanism state => exact state.stores.map
  | paramItem formerName =>
    have slot := Fills.optional stores_string nofun formerName
    refine stores_record rfl (by decide) (by simp [members, slot.wellFormed]) fun level => ?_
    simp only [members, List.map_cons, List.map_nil, slot.reads, guard_map, List.all_cons, List.all_nil,
      Bool.and_true]

/-- Looking at the whole state first refuses nothing that the members would accept. -/
theorem stores (extra : ExtraState) : Stores decode extra.encode extra := by
  have tagged := extra.stores_tagged
  have wellFormed : extra.encode.WellFormed := ⟨rfl, rfl, tagged.wellFormed⟩
  refine ⟨wellFormed, fun level => ?_⟩
  have inner := tagged.decodes level
  rw [decode, untag?_encode, Option.bind_some, fits_encode]
  dsimp only
  rw [inner]
  cases fitting : fits level (.ofMembers extra.members) with
  | true => rw [if_pos (readable_of_fits wellFormed (extra.fits_encode level ▸ fitting))]
  | false => simp

end ExtraState

end RobotBlocks
