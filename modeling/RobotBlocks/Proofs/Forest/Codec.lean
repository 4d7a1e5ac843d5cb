import RobotBlocks.Forest.Codec
import RobotBlocks.Proofs.Block.Codec

/-! Forests are read back from their stored form, with the order of their stacks, chains, inputs and
fields. Fields and inputs are entries under distinct labels. -/
namespace RobotBlocks

open Json Decoder

/-! Labelled values. -/

theorem Labelled.stores {α : Type} {item : Decoder α} {members : List (Json.Text × Value)}
    {entries : Labelled α} (distinct : entries.labels.Nodup) (wellFormed : WellFormedMembers members)
    (mapped : ∀ level, (members.mapM fun (name, value) => do return (← name, ← item level value))
      = if members.all fun (_, value) => fits level value then some entries else none) :
    Stores (Labelled.decode item) (.object members) entries where
  wellFormed := wellFormed
  decodes level := by
    cases level with
    | zero => rfl
    | succ level =>
      have whole : Labelled.decode item (level + 1) (.object members)
          = Option.bind (members.mapM fun (name, value) => do return (← name, ← item level value))
              fun entries => some (.ofPairs entries) := rfl
      rw [whole, mapped, guard_bind, ofPairs_of_nodup distinct]
      rfl

theorem Labelled.stores_texts {entries : Labelled String} (distinct : entries.labels.Nodup) :
    Stores (Labelled.decode string) (entries.encode .ofString) entries := by
  have each : ∀ entries : Labelled String,
      WellFormedMembers (entries.map fun entry => ((some entry.1 : Json.Text), Value.ofString entry.2)) ∧
      ∀ level, ((entries.map fun entry => ((some entry.1 : Json.Text), Value.ofString entry.2)).mapM
          fun member => do return (← member.1, ← string level member.2))
        = if (entries.map fun entry =>
            ((some entry.1 : Json.Text), Value.ofString entry.2)).all fun member => fits level member.2
          then some entries else none := by
    intro entries
    induction entries with
    | nil => exact ⟨trivial, fun _ => rfl⟩
    | cons entry entries ih =>
      obtain ⟨name, value⟩ := entry
      refine ⟨⟨rfl, rfl, ih.1⟩, fun level => ?_⟩
      have here := (stores_string value).decodes level
      rw [List.map_cons, List.mapM_cons, ih.2]
      simp only [here, Option.bind_eq_bind, Option.bind_some, guard_bind, guard_guard, pure,
        List.all_cons]
      rfl
  exact Labelled.stores distinct (each entries).1 (each entries).2

namespace BlockTree

mutual

/-- Fields and inputs stand under distinct labels, in the tree and in all trees inside. -/
def Distinct : BlockTree → Prop
  | node _ _ fields _ inputs =>
    (Labelled.labels fields).Nodup ∧ (Labelled.labels inputs).Nodup ∧ DistinctInputs inputs

def DistinctInputs : List (String × List BlockTree) → Prop
  | [] => True
  | (_, chain) :: inputs => DistinctChain chain ∧ DistinctInputs inputs

def DistinctChain : List BlockTree → Prop
  | [] => True
  | tree :: chain => Distinct tree ∧ DistinctChain chain

end

theorem decodeInputs_eq : decodeInputs = Labelled.decode decodeChain := by
  funext level value
  cases level <;> cases value <;> simp [decodeInputs, Labelled.decode]

theorem fields_fill {fields : Labelled String} (distinct : (Labelled.labels fields).Nodup) :
    Fills (defaulted (Labelled.decode string) []) (encodeFields? fields) fields := by
  unfold encodeFields?
  split
  · next empty =>
    rw [List.isEmpty_iff.mp empty]
    exact .missing []
  · exact .defaulted (Labelled.stores_texts distinct) []

theorem extra_fills (extra : ExtraState) :
    Fills (defaulted ExtraState.decode .none) (encodeExtra? extra) extra := by
  cases extra with
  | none => exact .missing _
  | _ => exact .defaulted (ExtraState.stores _) _

/-- A tree whose inputs are read back. -/
theorem stores_node {id : BlockId} {kind : Kind} {fields : Labelled String} {extra : ExtraState}
    {inputs : List (String × List BlockTree)} (distinct : (Labelled.labels fields).Nodup)
    (inner : Stores decodeInputs (.object (encodeInputs inputs)) inputs) :
    Stores decode (node id kind fields extra inputs).encode (node id kind fields extra inputs) := by
  have id' := Fills.required id.stores
  have kind' := Fills.required kind.stores
  have fields' := fields_fill distinct
  have extra' := extra_fills extra
  have inputs' : Fills (defaulted decodeInputs [])
      (if inputs.isEmpty then none else some (.object (encodeInputs inputs))) inputs := by
    split
    · next empty =>
      rw [List.isEmpty_iff.mp empty]
      exact .missing []
    · exact .defaulted inner []
  have labels : Labelled.labels [("id", some id.encode), ("type", some kind.encode),
      ("fields", encodeFields? fields), ("extraState", encodeExtra? extra),
      ("inputs", if inputs.isEmpty then none else some (.object (encodeInputs inputs)))]
        = ["id", "type", "fields", "extraState", "inputs"] := rfl
  rw [encode]
  generalize (if inputs.isEmpty then none else some (Value.object (encodeInputs inputs))) = slot
    at inputs' labels ⊢
  constructor
  · apply Members.wellFormed
    simp [id'.wellFormed, kind'.wellFormed, fields'.wellFormed, extra'.wellFormed, inputs'.wellFormed]
  · intro level
    cases level with
    | zero => rfl
    | succ level =>
      rw [Members.fits_ofMembers, decode, Members.slots?_of_labels labels (by decide)]
      have last := inputs'.reads level
      simp only [List.map_cons, List.map_nil, Option.bind_eq_bind, Option.bind_some, id'.reads,
        kind'.reads, fields'.reads, extra'.reads, guard_bind, List.all_cons, List.all_nil,
        Bool.and_true, ← guard_guard]
      cases slot with
      | none =>
        cases last
        rfl
      | some value =>
        simp only [defaulted] at last
        simp only [last, guard_bind, pure]

mutual

theorem stores : ∀ tree : BlockTree, tree.Distinct → Stores decode tree.encode tree
  | node _ _ _ _ inputs, ⟨fields, labels, inner⟩ => by
    obtain ⟨wellFormed, mapped⟩ := inputs_read inputs inner
    exact stores_node fields (decodeInputs_eq ▸ Labelled.stores labels wellFormed mapped)

theorem inputs_read : ∀ inputs : List (String × List BlockTree), DistinctInputs inputs →
    WellFormedMembers (encodeInputs inputs) ∧
    ∀ level, (encodeInputs inputs).mapM (fun (name, value) => do
        return (← name, ← decodeChain level value))
      = if (encodeInputs inputs).all fun (_, value) => fits level value then some inputs else none
  | [], _ => ⟨trivial, fun _ => rfl⟩
  | (name, chain) :: inputs, ⟨first, later⟩ => by
    obtain ⟨wellFormed, mapped⟩ := inputs_read inputs later
    have here := chain_reads chain first
    refine ⟨⟨rfl, here.wellFormed, wellFormed⟩, fun level => ?_⟩
    rw [encodeInputs, List.mapM_cons, mapped]
    simp only [here.decodes, Option.bind_eq_bind, Option.bind_some, guard_bind, guard_guard, pure,
      List.all_cons]
    rfl

theorem chain_reads : ∀ chain : List BlockTree, DistinctChain chain →
    Stores decodeChain (.array (encodeChain chain)) chain
  | chain, distinct => by
    obtain ⟨wellFormed, mapped⟩ := trees_read chain distinct
    refine ⟨wellFormed, fun level => ?_⟩
    cases level with
    | zero => rfl
    | succ level => exact mapped level

theorem trees_read : ∀ chain : List BlockTree, DistinctChain chain →
    WellFormedItems (encodeChain chain) ∧
    ∀ level, (encodeChain chain).mapM (decode level)
      = if (encodeChain chain).all (fits level) then some chain else none
  | [], _ => ⟨trivial, fun _ => rfl⟩
  | tree :: chain, ⟨first, later⟩ => by
    obtain ⟨wellFormed, mapped⟩ := trees_read chain later
    have here := stores tree first
    refine ⟨⟨here.wellFormed, wellFormed⟩, fun level => ?_⟩
    rw [encodeChain, List.mapM_cons, mapped]
    simp only [here.decodes, Option.bind_eq_bind, guard_bind, guard_guard, pure, List.all_cons]
    rfl

end

end BlockTree

namespace Forest

def Distinct (forest : Forest) : Prop :=
  ∀ chain ∈ forest.chains, BlockTree.DistinctChain chain

theorem stores {forest : Forest} (distinct : forest.Distinct) :
    Stores decode forest.encode forest := by
  have chains := Fills.defaulted (Stores.list fun chain member =>
    BlockTree.chain_reads chain (distinct chain member)) []
  refine stores_record rfl (by decide) (by simp [chains.wellFormed]) fun level => ?_
  simp only [List.map_cons, List.map_nil, chains.reads, Option.bind_eq_bind, guard_bind, pure,
    List.all_cons, List.all_nil, Bool.and_true]

end Forest
/-- A block on its own has only its fields to keep apart. -/
theorem Forest.distinct_single {id : BlockId} {kind : Kind} {fields : Labelled String}
    {extra : ExtraState} (distinct : fields.labels.Nodup) :
    Forest.Distinct ⟨[[.node id kind fields extra []]]⟩ := by
  intro chain member
  cases List.mem_singleton.mp member
  exact ⟨⟨distinct, List.nodup_nil, trivial⟩, trivial⟩

end RobotBlocks
