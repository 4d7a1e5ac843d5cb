import RobotBlocks.Proofs.Json.Depth
import RobotBlocks.Proofs.Module.Content

/-! What the stored text of a content depends on. The ids that a content mentions are its only
numbers, so the text of every content of a known type is read back up to the depth of its document
alone. -/
namespace RobotBlocks

open Json Decoder

/-! The ids in a content. -/

/-- The declaration that a call keeps. -/
def ExtraState.mentions (extra : ExtraState) : List BlockId := (extra.call?.bind (·.declaration)).toList

namespace BlockTree

mutual

/-- The ids of all blocks and of the declarations that their calls keep. -/
def mentions : BlockTree → List BlockId
  | node id _ _ extra inputs => id :: extra.mentions ++ inputMentions inputs

def inputMentions : List (String × List BlockTree) → List BlockId
  | [] => []
  | (_, chain) :: inputs => chainMentions chain ++ inputMentions inputs

def chainMentions : List BlockTree → List BlockId
  | [] => []
  | tree :: chain => mentions tree ++ chainMentions chain

end

end BlockTree

def Declarations.mentions (own : Declarations) : List BlockId :=
  own.components.map (·.block) ++ own.events.map (·.block) ++ own.methods.map (·.block)

def ModuleContent.mentions (content : ModuleContent) : List BlockId :=
  content.blocks.chains.flatMap BlockTree.chainMentions ++ content.declarations.mentions

/-! Numbers of encoded data. -/

/-- The id has 32 bits. -/
def BlockId.Narrow (id : BlockId) : Prop := id.number < Nat.pow 2 32
  deriving Decidable

@[simp] theorem BlockId.narrow_encode {id : BlockId} : id.encode.Narrow ↔ id.Narrow := narrow_ofNat

@[simp] theorem Kind.narrow_encode (kind : Kind) : kind.encode.Narrow := trivial

@[simp] theorem Visibility.narrow_encode (visibility : Visibility) : visibility.encode.Narrow := trivial

@[simp] theorem Parameter.narrow_encodeList (params : List Parameter) :
    (Parameter.encodeList params).Narrow := by
  simp [Parameter.encodeList, Parameter.encode]

theorem CallState.narrow_members {call : CallState} :
    (Value.ofMembers call.members).Narrow ↔ ∀ id ∈ call.declaration, id.Narrow := by
  obtain ⟨target, name, args, returnType, declaration⟩ := call
  cases target <;> simp [CallState.members, CallTarget.members]

@[simp] theorem ExtraState.narrow_encode {extra : ExtraState} :
    extra.encode.Narrow ↔ ∀ id ∈ extra.mentions, id.Narrow := by
  cases extra with
  | call call => simpa [encode, mentions, call?, members] using call.narrow_members
  | _ => simp [encode, mentions, call?, members]

namespace BlockTree

theorem narrow_encodeExtra? {extra : ExtraState} :
    NarrowSlot (encodeExtra? extra) ↔ ∀ id ∈ extra.mentions, id.Narrow := by
  cases extra with
  | none => simp [encodeExtra?, ExtraState.mentions, ExtraState.call?]
  | _ => simp [encodeExtra?]

theorem narrow_encodeFields? (fields : Labelled String) : NarrowSlot (encodeFields? fields) := by
  unfold encodeFields?
  split
  · exact narrowSlot_none
  · rw [narrowSlot_some, Labelled.encode, narrow_object, List.forall_mem_map]
    exact fun entry _ => narrow_ofString entry.2

mutual

theorem narrow_encode : ∀ tree : BlockTree,
    tree.encode.Narrow ↔ ∀ id ∈ tree.mentions, id.Narrow
  | node id kind fields extra inputs => by
    have below := narrow_encodeInputs inputs
    have slot : NarrowSlot (if inputs.isEmpty then none else some (.object (encodeInputs inputs)))
        ↔ (Value.object (encodeInputs inputs)).Narrow := by
      split
      · next empty => simp [List.isEmpty_iff.mp empty, encodeInputs]
      · exact narrowSlot_some
    rw [encode, mentions, narrow_ofMembers]
    simp only [List.forall_mem_cons, List.forall_mem_append, List.cons_append, slot, below,
      narrow_encodeExtra?, narrow_encodeFields?, narrowSlot_some, BlockId.narrow_encode,
      Kind.narrow_encode, List.not_mem_nil, IsEmpty.forall_iff, implies_true, true_and, and_true]

theorem narrow_encodeInputs : ∀ inputs : List (String × List BlockTree),
    (Value.object (encodeInputs inputs)).Narrow ↔ ∀ id ∈ inputMentions inputs, id.Narrow
  | [] => by simp [encodeInputs, inputMentions]
  | (name, chain) :: inputs => by
    have first := narrow_encodeChain chain
    have later := narrow_encodeInputs inputs
    simp only [narrow_array, narrow_object] at first later
    simp only [encodeInputs, inputMentions, narrow_object, narrow_array, List.forall_mem_cons,
      List.forall_mem_append, first, later]

theorem narrow_encodeChain : ∀ chain : List BlockTree,
    (Value.array (encodeChain chain)).Narrow ↔ ∀ id ∈ chainMentions chain, id.Narrow
  | [] => by simp [encodeChain, chainMentions]
  | tree :: chain => by
    have first := narrow_encode tree
    have later := narrow_encodeChain chain
    simp only [narrow_array] at later
    simp only [encodeChain, chainMentions, narrow_array, List.forall_mem_cons,
      List.forall_mem_append, first, later]

end

end BlockTree

theorem Forest.narrow_encode {forest : Forest} :
    forest.encode.Narrow ↔ ∀ id ∈ forest.chains.flatMap BlockTree.chainMentions, id.Narrow := by
  simp only [Forest.encode, narrow_ofMembers, List.forall_mem_singleton, narrowSlot_some, narrow_array,
    List.forall_mem_map, List.forall_mem_flatMap, ← BlockTree.narrow_encodeChain]

namespace ModuleContent

/-- The numbers in a document are the ids that the content mentions. -/
theorem narrow_encode {content : ModuleContent} :
    content.encode.Narrow ↔ ∀ id ∈ content.mentions, id.Narrow := by
  simp [encode, Declarations.members, mentions, Declarations.mentions, Forest.narrow_encode,
    ComponentDecl.encode, EventDecl.encode, MethodDecl.encode, OpModeDetails.encode, or_imp, forall_and]

/-- A content of a known type is read back from its text, with every order in it, exactly as long as
its document nests no deeper than the parser goes, and what was read has the same text again. -/
theorem text_round_trip {content : ModuleContent} (distinct : content.blocks.Distinct)
    (typed : ∀ id ∈ content.mentions, id.Narrow) (known : content.type ≠ .unknown) :
    (content.encode.depth ≤ 128 → parse content.text = .ok content
      ∧ (parse content.text).map text = .ok content.text)
    ∧ (128 < content.encode.depth → parse content.text = .error .malformed) := by
  have parsed := parse_text distinct known
  have fitting : fits levels content.encode = true ↔ content.encode.depth ≤ 128 := by
    rw [fits_iff, narrow_encode]
    exact and_iff_left typed
  constructor
  · intro shallow
    rw [if_pos (fitting.mpr shallow)] at parsed
    exact ⟨parsed, congrArg (Except.map text) parsed⟩
  · intro deep
    rw [parsed, if_neg fun fits => Nat.not_le_of_lt deep (fitting.mp fits)]

/-- Quotes, line breaks and control characters come back as they were, and so does the order of
stacks. -/
theorem text_round_trip_quoted :
    let call : CallState := { target := .component "arm\"\n", name := "raise", declaration := some ⟨7⟩ }
    let inner : BlockTree := .node ⟨3⟩ .text [("TEXT", "\\ \u0001"), ("", "\t")] .none []
    let content : ModuleContent :=
      { type := .robot
        blocks := ⟨[[.node ⟨2⟩ .methodCall [] (.call call) [("ARG1", [inner]), ("ARG0", [])]], []]⟩
        declarations := { events := [⟨⟨9⟩, "é", [{ name := "", type := some "\"" }]⟩] } }
    content.encode.depth ≤ 128 ∧ ModuleContent.parse content.text = .ok content := by
  intro call inner content
  have distinct : content.blocks.Distinct := by
    simp [content, inner, Forest.Distinct, BlockTree.DistinctChain, BlockTree.Distinct,
      BlockTree.DistinctInputs, Labelled.labels]
  have shallow : content.encode.depth ≤ 128 := by decide
  exact ⟨shallow, ((text_round_trip distinct (by decide) (by decide)).1 shallow).1⟩

end ModuleContent
end RobotBlocks
