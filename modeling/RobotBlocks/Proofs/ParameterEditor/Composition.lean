import RobotBlocks.ParameterEditor
import RobotBlocks.Proofs.Graph.Refusal
import RobotBlocks.Proofs.Text.Names

/-! Applying a parameter editor. The items of the container that have a name become the parameters, in their
order and under names of their own; the declaration shows these parameters and nothing else of it changes; and
the items remember their names, so that applying the editor again changes nothing. -/
namespace RobotBlocks

/-! Items. -/

namespace Block

variable (item : Block) (name : String)

/-- The name that the parameter of an item had. -/
def formerName? : Option String :=
  match item.extra with
  | .paramItem formerName => formerName
  | _ => none

/-- The type that an item gives its parameter. -/
def itemType? : Option String := (item.field? Field.type).filter fun type => !type.isEmpty

/-- The item, showing a name and remembering it. -/
def retagged : Block :=
  ({ item with fields := item.fields.put Field.name name } : Block).withExtra (.paramItem (some name))

theorem retagged_eq : item.retagged name = { item with
    fields := item.fields.put Field.name name, sockets := Socket.declared item.kind (.paramItem (some name)),
    extra := .paramItem (some name) } := rfl

@[simp] theorem kind_retagged : (item.retagged name).kind = item.kind := rfl

@[simp] theorem id_retagged : (item.retagged name).id = item.id := rfl

@[simp] theorem name_retagged : (item.retagged name).name = name := by
  simp [retagged_eq, Block.name, fieldD, field?]

@[simp] theorem itemType?_retagged : (item.retagged name).itemType? = item.itemType? := by
  simp [retagged_eq, itemType?, field?, Field.name, Field.type]

@[simp] theorem formerName?_retagged : (item.retagged name).formerName? = some name := rfl

/-- The block with other parameters, which it shows after all its other fields. -/
def declaring (block : Block) (params : List Parameter) : Block := { block with
  extra := block.extra.withParams params
  fields := block.fields.filter (fun (name, _) => !Field.isParam name) ++ paramFields 0 params }

end Block

theorem ExtraState.params?_withParams {extra : ExtraState} (declares : extra.params?.isSome = true)
    (params : List Parameter) : (extra.withParams params).params? = some params := by
  cases extra <;> first | rfl | cases declares

theorem ExtraState.withParams_withParams (extra : ExtraState) (params others : List Parameter) :
    (extra.withParams params).withParams others = extra.withParams others := by
  cases extra <;> rfl

namespace Block

theorem showParams_withParams {block : Block} (declares : block.extra.params?.isSome = true) (params : List Parameter) :
    ({ block with extra := block.extra.withParams params } : Block).showParams = block.declaring params := by
  simp only [showParams, ExtraState.params?_withParams declares]
  rfl

/-- The fields that show parameters are all of them parameter fields. -/
theorem filter_paramFields (index : Nat) (params : List Parameter) :
    (paramFields index params).filter (fun (name, _) => !Field.isParam name) = [] := by
  induction params generalizing index with
  | nil => rfl
  | cons param params ih =>
    rw [paramFields, List.filter_cons_of_neg (by simp [Field.isParam_param]), ih]

theorem declaring_declaring (block : Block) (params others : List Parameter) :
    (block.declaring params).declaring others = block.declaring others := by
  simp only [declaring, ExtraState.withParams_withParams, List.filter_append, filter_paramFields, List.append_nil,
    List.filter_filter, Bool.and_self]

end Block

namespace ParameterEditor

open RobotBlocks.Graph

variable {g g' editor editor' : Graph} {item block : Block} {items : List Block} {used : List String}
  {base : String} {read : List (BlockId × ParamChange)} {id declaration container : BlockId}

/-! Names. -/

theorem uniqueName_of_free (free : base ∉ used) : uniqueName base used = base :=
  if_neg fun taken => free (List.contains_iff_mem.mp taken)

theorem uniqueName_cases (base : String) (used : List String) :
    uniqueName base used = base ∨ ∃ n : Nat, uniqueName base used = base ++ toString n := by
  unfold uniqueName
  split
  · exact .inr Text.firstUnused_eq_candidate
  · exact .inl rfl

theorem uniqueName_not_mem (base : String) (used : List String) : uniqueName base used ∉ used :=
  Text.numbered_not_mem base base used

/-! Reading. -/

/-- Whether a block stands for a parameter. -/
def isNamed (item : Block) : Bool := item.kind = .paramItem && !(Text.trim item.name).isEmpty

theorem isNamed_iff : isNamed item = true ↔ item.kind = .paramItem ∧ Text.trim item.name ≠ "" := by
  simp [isNamed]

theorem readItems_unnamed (unnamed : isNamed item = false) : readItems (item :: items) used = readItems items used := by
  conv_lhs => unfold readItems
  refine if_pos ?_
  rw [isNamed, Bool.and_eq_false_iff] at unnamed
  simpa using unnamed

theorem readItems_named (named : isNamed item = true) : readItems (item :: items) used
    = (item.id, ⟨⟨uniqueName (Text.trim item.name) used, item.itemType?⟩, item.formerName?⟩)
      :: readItems items (uniqueName (Text.trim item.name) used :: used) := by
  obtain ⟨kind, some⟩ := isNamed_iff.mp named
  conv_lhs => unfold readItems
  rw [if_neg (by simp [kind, some])]
  rfl

theorem readItems_ids (items : List Block) (used : List String) :
    (readItems items used).map (·.1) = (items.filter isNamed).map (·.id) := by
  induction items generalizing used with
  | nil => rfl
  | cons item items ih =>
    cases named : isNamed item with
    | false => rw [readItems_unnamed named, ih, List.filter_cons_of_neg (by simp [named])]
    | true => rw [readItems_named named, List.filter_cons_of_pos named, List.map_cons, List.map_cons, ih]

/-- What an item asks for: a parameter under its name, or under that name with a number. -/
structure Asks (item : Block) (change : ParamChange) : Prop where
  name : change.param.name = Text.trim item.name ∨ ∃ n : Nat, change.param.name = Text.trim item.name ++ toString n
  type : change.param.type = item.itemType?
  former : change.previous = item.formerName?

theorem readItems_asks (items : List Block) (used : List String) :
    List.Forall₂ Asks (items.filter isNamed) ((readItems items used).map (·.2)) := by
  induction items generalizing used with
  | nil => exact .nil
  | cons item items ih =>
    cases named : isNamed item with
    | false =>
      rw [readItems_unnamed named, List.filter_cons_of_neg (by simp [named])]
      exact ih used
    | true =>
      rw [readItems_named named, List.filter_cons_of_pos named]
      exact .cons ⟨uniqueName_cases (Text.trim item.name) used, rfl, rfl⟩ (ih _)

theorem readItems_trimmed (items : List Block) (used : List String) :
    ∀ entry ∈ readItems items used, Text.trim entry.2.param.name = entry.2.param.name ∧ entry.2.param.name ≠ "" := by
  induction items generalizing used with
  | nil => exact List.forall_mem_nil _
  | cons item items ih =>
    cases named : isNamed item with
    | false =>
      rw [readItems_unnamed named]
      exact ih used
    | true =>
      rw [readItems_named named]
      refine List.forall_mem_cons.mpr ⟨?_, ih _⟩
      obtain ⟨-, some⟩ := isNamed_iff.mp named
      rcases uniqueName_cases (Text.trim item.name) used with same | ⟨n, same⟩
      · exact ⟨by rw [same, Text.trim_trim], by rwa [same]⟩
      · refine ⟨by rw [same, Text.trim_append_toString some], ?_⟩
        rw [same]
        exact fun empty => some (String.append_eq_empty_iff.mp empty).1

/-- No name is given twice, and none that was in use. -/
theorem readItems_distinct (items : List Block) (used : List String) :
    ((readItems items used).map fun entry => entry.2.param.name).Nodup ∧
      ∀ entry ∈ readItems items used, entry.2.param.name ∉ used := by
  induction items generalizing used with
  | nil => exact ⟨List.nodup_nil, List.forall_mem_nil _⟩
  | cons item items ih =>
    cases named : isNamed item with
    | false =>
      rw [readItems_unnamed named]
      exact ih used
    | true =>
      rw [readItems_named named]
      obtain ⟨distinct, apart⟩ := ih (uniqueName (Text.trim item.name) used :: used)
      refine ⟨List.nodup_cons.mpr ⟨fun member => ?_, distinct⟩, List.forall_mem_cons.mpr
        ⟨uniqueName_not_mem _ used, fun entry member taken => apart entry member (List.mem_cons_of_mem _ taken)⟩⟩
      obtain ⟨entry, member, same⟩ := List.mem_map.mp member
      exact apart entry member (same ▸ List.mem_cons_self ..)

/-- Items that show and remember the names that they got get them once more. -/
theorem readItems_again {after : Block → Block} (distinct : (items.map (·.id)).Nodup)
    (others : ∀ item ∈ items, (∀ entry ∈ readItems items used, entry.1 ≠ item.id) → after item = item)
    (tagged : ∀ item ∈ items, ∀ entry ∈ readItems items used, entry.1 = item.id →
      after item = item.retagged entry.2.param.name) :
    readItems (items.map after) used = (readItems items used).map fun entry => (entry.1, .kept entry.2.param) := by
  induction items generalizing used with
  | nil => rfl
  | cons item items ih =>
    obtain ⟨first, distinct⟩ := List.nodup_cons.mp distinct
    have owned : ∀ {used : List String}, ∀ entry ∈ readItems items used, entry.1 ≠ item.id := by
      intro used entry member same
      have listed := List.mem_map_of_mem (f := Prod.fst) member
      rw [readItems_ids] at listed
      obtain ⟨other, member, is⟩ := List.mem_map.mp listed
      exact first (List.mem_map.mpr ⟨other, (List.mem_filter.mp member).1, is.trans same⟩)
    cases named : isNamed item with
    | false =>
      rw [readItems_unnamed named] at others tagged
      rw [List.map_cons, others item (List.mem_cons_self ..) owned, readItems_unnamed named, readItems_unnamed named]
      exact ih distinct (fun other member => others other (List.mem_cons_of_mem _ member))
        fun other member => tagged other (List.mem_cons_of_mem _ member)
    | true =>
      rw [readItems_named named] at others tagged ⊢
      obtain ⟨kind, some⟩ := isNamed_iff.mp named
      obtain ⟨whole, free⟩ := readItems_trimmed (item :: items) used _ (readItems_named named ▸ List.mem_cons_self ..)
      have again : after item = item.retagged (uniqueName (Text.trim item.name) used) :=
        tagged item (List.mem_cons_self ..) _ (List.mem_cons_self ..) rfl
      have shown : isNamed (after item) = true := by
        rw [isNamed_iff, again]
        simpa [kind, whole] using free
      have same : uniqueName (Text.trim (after item).name) used = uniqueName (Text.trim item.name) used := by
        rw [again, Block.name_retagged, whole, uniqueName_of_free (uniqueName_not_mem _ used)]
      have apart : ∀ other ∈ items, item.id ≠ other.id := fun other member is =>
        first (List.mem_map.mpr ⟨other, member, is.symm⟩)
      rw [List.map_cons, readItems_named shown, same, List.map_cons, ih distinct]
      · rw [again, Block.itemType?_retagged]
        rfl
      · exact fun other member none => others other (List.mem_cons_of_mem _ member)
          (List.forall_mem_cons.mpr ⟨apart other member, none⟩)
      · exact fun other member entry listed => tagged other (List.mem_cons_of_mem _ member) entry
          (List.mem_cons_of_mem _ listed)

/-! Tagging. -/

/-- The items that are named show and remember their names; the editor is otherwise the same. -/
structure Retagged (editor editor' : Graph) (read : List (BlockId × ParamChange)) : Prop where
  sound : editor'.Sound
  shape : SameShape editor editor'
  others : ∀ id, (∀ entry ∈ read, entry.1 ≠ id) → editor'.block? id = editor.block? id
  items : ∀ entry ∈ read, editor'.block? entry.1 = (editor.block? entry.1).map (·.retagged entry.2.param.name)

theorem Retagged.queue (retagged : Retagged editor editor' read) (pending : EventQueue) :
    Retagged editor { editor' with pending } read :=
  ⟨retagged.sound.queue pending, ⟨retagged.shape.contains, retagged.shape.links⟩, retagged.others, retagged.items⟩

/-- Items hold no blocks. The kind asks for no sockets, so one that was put together by hand may have some. -/
def Bare (editor : Graph) : Prop :=
  ∀ {id item}, editor.block? id = some item → item.kind = .paramItem →
    ∀ socket ∈ item.sockets, editor.plugged? id socket.name = none

theorem bare_of_sound (sound : editor.Sound) : Bare editor := by
  intro id item found kind socket member
  rw [(sound.fitted found).sockets, kind] at member
  cases member

/-- The state of an item that holds nothing can be replaced. -/
theorem tag_ok (found : editor.block? id = some item)
    (bare : ∀ socket ∈ item.sockets, editor.plugged? id socket.name = none) (name : String) :
    ∃ old edited tagged, editor.setField id Field.name name = .ok (old, edited) ∧
      edited.setExtra id (.paramItem (some name)) = .ok tagged ∧
      (∀ other, tagged.block? other = if other = id then (editor.block? other).map (·.retagged name)
        else editor.block? other) ∧
      ∀ parent socket, tagged.plugged? parent socket = editor.plugged? parent socket := by
  obtain ⟨old, edited, sets⟩ := setField_ok Field.name name found
  have edits := block?_setField sets
  have holds : ∀ parent socket, edited.plugged? parent socket = editor.plugged? parent socket :=
    fun parent socket => child?_setField sets parent (.socket socket)
  have found' : edited.block? id = some { item with fields := item.fields.put Field.name name } := by
    rw [edits, if_pos rfl, found]
    rfl
  obtain ⟨tagged, tags⟩ : ∃ tagged, edited.setExtra id (.paramItem (some name)) = .ok tagged := by
    refine ⟨_, setExtra_eq_ok.mpr ⟨_, found', fun socket member plugged => ?_, rfl⟩⟩
    rw [holds, bare socket member] at plugged
    cases plugged
  refine ⟨old, edited, tagged, sets, tags, fun other => ?_, fun parent socket =>
    (child?_setExtra tags parent (.socket socket)).trans (holds parent socket)⟩
  rw [block?_setExtra tags, edits]
  split
  · rw [Option.map_map]
    rfl
  · rfl

theorem retag_of_bare (bare : Bare editor)
    (items : ∀ entry ∈ read, ∃ item, editor.block? entry.1 = some item ∧ item.kind = .paramItem) :
    ∃ editor', retag editor read = .ok editor' := by
  induction read generalizing editor with
  | nil => exact ⟨editor, rfl⟩
  | cons entry read ih =>
    obtain ⟨id, change⟩ := entry
    obtain ⟨⟨item, found, kind⟩, rest⟩ := List.forall_mem_cons.mp items
    obtain ⟨old, edited, tagged, sets, tags, blocks, holds⟩ := tag_ok found (bare found kind) change.param.name
    have bare' : Bare tagged := by
      intro other after there own socket member
      rw [blocks] at there
      split at there
      · obtain ⟨before, -, rfl⟩ := Option.map_eq_some_iff.mp there
        rw [Block.retagged_eq, show before.kind = .paramItem from own] at member
        cases member
      · rw [holds]
        exact bare there own socket member
    obtain ⟨editor', retags⟩ := ih bare' fun entry member => by
      obtain ⟨item, there, own⟩ := rest entry member
      rw [blocks]
      split
      · exact ⟨item.retagged change.param.name, by rw [there]; rfl, own⟩
      · exact ⟨item, there, own⟩
    exact ⟨editor', by simp only [retag, sets, tags, mapError_ok, ok_bind, retags]⟩

theorem retag_ok (sound : editor.Sound) (distinct : (read.map (·.1)).Nodup)
    (items : ∀ entry ∈ read, ∃ item, editor.block? entry.1 = some item ∧ item.kind = .paramItem) :
    ∃ editor', retag editor read = .ok editor' ∧ Retagged editor editor' read := by
  induction read generalizing editor with
  | nil => exact ⟨editor, rfl, sound, .refl editor, fun _ _ => rfl, List.forall_mem_nil _⟩
  | cons entry read ih =>
    obtain ⟨id, change⟩ := entry
    obtain ⟨first, distinct⟩ := List.nodup_cons.mp distinct
    obtain ⟨⟨item, found, kind⟩, rest⟩ := List.forall_mem_cons.mp items
    obtain ⟨old, edited, tagged, sets, tags, blocks, -⟩ :=
      tag_ok found (bare_of_sound sound found kind) change.param.name
    have shape : SameShape editor tagged := by
      refine ⟨fun other => ?_, fun other => ?_⟩
      · rw [Bool.eq_iff_iff, contains_iff_block, contains_iff_block, blocks]
        split <;> simp
      · rw [parentLink?_setExtra tags, parentLink?_setField sets]
    have apart : ∀ entry ∈ read, entry.1 ≠ id := fun entry member same =>
      first (List.mem_map.mpr ⟨entry, member, same⟩)
    have kept : ∀ entry ∈ read, tagged.block? entry.1 = editor.block? entry.1 := fun entry member => by
      rw [blocks, if_neg (apart entry member)]
    obtain ⟨editor', retags, retagged⟩ := ih ((sound.setField sets).setExtra tags) distinct fun entry member =>
      (kept entry member).symm ▸ rest entry member
    refine ⟨editor', ?_, retagged.sound, shape.trans retagged.shape, fun other none => ?_,
      List.forall_mem_cons.mpr ⟨?_, fun entry member => ?_⟩⟩
    · simp only [retag, sets, tags, mapError_ok, ok_bind, retags]
    · obtain ⟨here, none⟩ := List.forall_mem_cons.mp none
      rw [retagged.others other none, blocks, if_neg (Ne.symm here)]
    · rw [retagged.others id apart, blocks, if_pos rfl]
    · rw [retagged.items entry member, kept entry member]

/-! Applying. -/

/-- The blocks in the container, from the first one down. -/
def listed (editor : Graph) (container : BlockId) : List Block :=
  (editor.statementStack container Socket.stack).filterMap editor.block?

theorem listed_distinct (tree : editor.Tree) (container : BlockId) : ((listed editor container).map (·.id)).Nodup := by
  have same : (listed editor container).map (·.id)
      = (editor.statementStack container Socket.stack).filterMap fun id => (editor.block? id).map (·.id) :=
    List.map_filterMap
  have ids : (editor.statementStack container Socket.stack).filterMap (fun id => (editor.block? id).map (·.id))
      = editor.statementStack container Socket.stack := by
    refine (List.filterMap_congr fun id member => ?_).trans List.filterMap_some
    obtain ⟨block, found⟩ := contains_iff_block.mp (tree.contains_of_mem_statementStack member)
    rw [found, Option.map_some, block?_id found]
  rw [same, ids]
  exact tree.statementStack_nodup container Socket.stack

theorem mem_readItems_listed {entry : BlockId × ParamChange}
    (member : entry ∈ readItems (listed editor container) []) :
    ∃ item, editor.block? entry.1 = some item ∧ item.kind = .paramItem := by
  have ids := List.mem_map_of_mem (f := Prod.fst) member
  rw [readItems_ids] at ids
  obtain ⟨item, named, same⟩ := List.mem_map.mp ids
  obtain ⟨member, named⟩ := List.mem_filter.mp named
  obtain ⟨id, -, found⟩ := List.mem_filterMap.mp member
  exact ⟨item, by rw [← same, block?_id found, found], (isNamed_iff.mp named).1⟩

theorem readItems_listed_distinct (tree : editor.Tree) (container : BlockId) :
    ((readItems (listed editor container) []).map (·.1)).Nodup := by
  rw [readItems_ids]
  exact (listed_distinct tree container).sublist (List.filter_sublist.map _)

theorem compose_ok {params : List Parameter} (declares : g.getParams declaration = .ok params)
    (holds : container? editor = some container)
    (signs : g.setSignature declaration ((readItems (listed editor container) []).map (·.2)) = .ok g')
    (retags : retag editor (readItems (listed editor container) []) = .ok editor') :
    compose g declaration editor
      = .ok ⟨(readItems (listed editor container) []).map (·.2), g', { editor' with pending := {} }⟩ := by
  simp only [compose, declares, holds, mapError_ok, ok_bind]
  unfold listed at signs retags ⊢
  simp only [signs, retags, mapError_ok, ok_bind]
  rfl

/-- An application that is given up has changed nothing yet, or an item refused its name. -/
theorem compose_error {aborted : Aborted} (composes : compose g declaration editor = .error aborted) :
    aborted.graph = g ∧ aborted.editor = editor ∨
      ∃ container, container? editor = some container ∧
        g.setSignature declaration ((readItems (listed editor container) []).map (·.2)) = .ok aborted.graph ∧
        retag editor (readItems (listed editor container) []) = .error (aborted.error, aborted.editor) := by
  simp only [compose, bind_eq_error, mapError_eq_error, mapError_eq_ok] at composes
  rcases composes with ⟨reason, -, rfl⟩ | ⟨params, -, composes⟩
  · exact .inl ⟨rfl, rfl⟩
  · split at composes
    · next container holds =>
      simp only [bind_eq_error, mapError_eq_error, mapError_eq_ok] at composes
      rcases composes with ⟨reason, -, rfl⟩ | ⟨signed, signs, ⟨⟨reason, left⟩, retags, rfl⟩ | ⟨edited, -, composes⟩⟩
      · exact .inl ⟨rfl, rfl⟩
      · exact .inr ⟨container, holds, signs, retags⟩
      · cases composes
    · cases composes
      exact .inl ⟨rfl, rfl⟩

/-- No item that is read refuses its new name. -/
def Renames (editor : Graph) : Prop :=
  ∀ {container}, container? editor = some container →
    ∃ editor', retag editor (readItems (listed editor container) []) = .ok editor'

theorem Bare.renames (bare : Bare editor) : Renames editor :=
  fun _ => retag_of_bare bare fun _ => mem_readItems_listed

theorem compose_untouched {aborted : Aborted} (renames : Renames editor)
    (composes : compose g declaration editor = .error aborted) : aborted.graph = g ∧ aborted.editor = editor := by
  rcases compose_error composes with untouched | ⟨container, holds, -, refused⟩
  · exact untouched
  · obtain ⟨editor', retags⟩ := renames holds
    cases refused.symm.trans retags

section Again

variable (retagged : Retagged editor editor' (readItems (listed editor container) [])) (tree : editor.Tree)
include retagged tree

theorem Retagged.container? : container? editor' = container? editor := by
  have kinds : ∀ id, (editor'.block? id).map Block.kind = (editor.block? id).map Block.kind := by
    intro id
    by_cases some : ∃ entry ∈ readItems (listed editor container) [], entry.1 = id
    · obtain ⟨entry, member, rfl⟩ := some
      rw [retagged.items _ member, Option.map_map]
      rfl
    · rw [retagged.others id fun entry member same => some ⟨entry, member, same⟩]
  have tests : ∀ id, (editor'.block? id).any (fun block => block.kind = .paramContainer)
      = (editor.block? id).any fun block => block.kind = .paramContainer := fun id => by
    simpa only [Option.any_map] using congrArg (Option.any fun kind => kind = .paramContainer) (kinds id)
  simp only [ParameterEditor.container?, retagged.shape.topBlocks tree retagged.sound.tree, tests]

/-- The items are read as they were read before, each with its own name as the former one. -/
theorem Retagged.readItems_listed : readItems (listed editor' container) []
    = (readItems (listed editor container) []).map fun entry => (entry.1, .kept entry.2.param) := by
  let after (item : Block) : Block := (editor'.block? item.id).getD item
  have shown : listed editor' container = (listed editor container).map after := by
    rw [listed, retagged.shape.statementStack tree retagged.sound.tree, listed, List.map_filterMap]
    refine List.filterMap_congr fun id member => ?_
    have present := tree.contains_of_mem_statementStack member
    obtain ⟨item, found⟩ := contains_iff_block.mp present
    obtain ⟨item', found'⟩ := contains_iff_block.mp ((retagged.shape.contains id).trans present)
    rw [found, found', Option.map_some]
    simp only [after, block?_id found, found', Option.getD_some]
  have own : ∀ item ∈ listed editor container, editor.block? item.id = some item := by
    intro item member
    obtain ⟨id, -, found⟩ := List.mem_filterMap.mp member
    rw [block?_id found, found]
  rw [shown]
  refine readItems_again (listed_distinct tree container) (fun item member none => ?_)
    fun item member entry listed same => ?_
  · simp only [after, retagged.others item.id none, own item member, Option.getD_some]
  · simp only [after, ← same, retagged.items entry listed]
    rw [same, own item member]
    rfl

end Again

theorem container?_ok {top : BlockId} (tree : editor.Tree) (there : editor.block? top = some block)
    (kind : block.kind = .paramContainer) (free : editor.parent? top = none) :
    ∃ container, container? editor = some container := by
  refine Option.isSome_iff_exists.mp (List.find?_isSome.mpr ⟨top, ?_, by simp [there, kind]⟩)
  exact tree.mem_topBlocks.mpr ⟨contains_iff_block.mpr ⟨block, there⟩, free⟩

theorem getParams_eq {params : List Parameter} (found : g.block? declaration = some block)
    (declares : block.extra.params? = some params) : g.getParams declaration = .ok params := by
  simp only [getParams, get_eq_ok.mpr found, ok_bind, declares]
  rfl

theorem getParams_ok (found : g.block? declaration = some block) (declares : block.extra.params?.isSome = true) :
    ∃ params, g.getParams declaration = .ok params :=
  (Option.isSome_iff_exists.mp declares).imp fun _ => getParams_eq found

theorem setSignature_ok (found : g.block? declaration = some block) (declares : block.extra.params?.isSome = true)
    (changes : List ParamChange) : ∃ g', g.setSignature declaration changes = .ok g' ∧
      g'.block? declaration = some (block.declaring (changes.map (·.param))) := by
  obtain ⟨g', signs⟩ : ∃ g', g.setSignature declaration changes = .ok g' :=
    ok_setSignature_iff.mpr ⟨block, found, Option.isSome_iff_ne_none.mp declares⟩
  refine ⟨g', signs, ?_⟩
  rw [block?_setSignature signs, if_pos rfl, found, Option.map_some, Block.showParams_withParams declares]

/-- An editor with a container can be applied to any declaration. There is one parameter for each item with a
name, in the order of the items; the names are trimmed, not empty, and no two are the same; the declaration has
these parameters and shows them, and the rest of it is as it was; and the editor applied once more finds the same
parameters, none of them renamed, and leaves the declaration as it is. -/
theorem compose_settles {top : BlockId} {holder : Block} (reached : editor.Reachable)
    (found : g.block? declaration = some block) (declares : block.extra.params?.isSome = true)
    (there : editor.block? top = some holder) (kind : holder.kind = .paramContainer)
    (free : editor.parent? top = none) :
    ∃ container composed, container? editor = some container ∧ compose g declaration editor = .ok composed ∧
      List.Forall₂ Asks ((listed editor container).filter isNamed) composed.changes ∧
      (∀ change ∈ composed.changes, Text.trim change.param.name = change.param.name ∧ change.param.name ≠ "") ∧
      (composed.changes.map (·.param.name)).Nodup ∧
      composed.graph.block? declaration = some (block.declaring (composed.changes.map (·.param))) ∧
      (block.declaring (composed.changes.map (·.param))).extra.params? = some (composed.changes.map (·.param)) ∧
      ∃ again, compose composed.graph declaration composed.editor = .ok again ∧
        again.changes = composed.changes.map (fun change => .kept change.param) ∧
        again.graph.block? declaration = composed.graph.block? declaration := by
  have sound := reached.sound
  obtain ⟨container, holds⟩ := container?_ok sound.tree there kind free
  obtain ⟨params, own⟩ := getParams_ok found declares
  obtain ⟨g', signs, signed⟩ := setSignature_ok found declares ((readItems (listed editor container) []).map (·.2))
  obtain ⟨edited, retags, retagged⟩ := retag_ok sound (readItems_listed_distinct sound.tree container) fun _ =>
    mem_readItems_listed
  have retagged := retagged.queue {}
  have params' := ExtraState.params?_withParams declares
    (((readItems (listed editor container) []).map (·.2)).map (·.param))
  refine ⟨container, _, holds, compose_ok own holds signs retags, readItems_asks _ _, fun change member => ?_,
    ?_, signed, params', ?_⟩
  · obtain ⟨entry, own, rfl⟩ := List.mem_map.mp member
    exact readItems_trimmed _ _ entry own
  · rw [List.map_map]
    exact (readItems_distinct _ _).1
  · have declares' := Option.isSome_iff_exists.mpr ⟨_, params'⟩
    obtain ⟨params, own'⟩ := getParams_ok signed declares'
    have sound' := retagged.sound
    have same := retagged.readItems_listed sound.tree
    obtain ⟨again, signs', signed'⟩ := setSignature_ok signed declares'
      ((readItems (listed { edited with pending := {} } container) []).map (·.2))
    obtain ⟨edited', retags', -⟩ := retag_ok sound' (readItems_listed_distinct sound'.tree container) fun _ =>
      mem_readItems_listed
    refine ⟨_, compose_ok own' ((retagged.container? sound.tree).trans holds) signs' retags', ?_, ?_⟩
    · rw [same, List.map_map, List.map_map]
      rfl
    · rw [signed', signed, Block.declaring_declaring, same]
      simp only [List.map_map]
      rfl

/-- Two items of one name, one without a name, and one that is called like a numbered name. -/
theorem compose_settles_numbered :
    let edits : List Mutation :=
      [.add .paramContainer .none, .add .paramItem (.paramItem (some "a")), .add .paramItem (.paramItem none),
        .add .paramItem (.paramItem (some "b")), .add .paramItem (.paramItem none),
        .setField ⟨1⟩ Field.name " a2 ", .setField ⟨2⟩ Field.name "a", .setField ⟨4⟩ Field.name "a",
        .connectSocket ⟨0⟩ Socket.stack ⟨1⟩, .connectNext ⟨1⟩ ⟨2⟩, .connectNext ⟨2⟩ ⟨3⟩, .connectNext ⟨3⟩ ⟨4⟩]
    let editor := edits.foldl Graph.mutate Graph.empty
    let g := Graph.empty.mutate (.add .event (.event [{ name := "a" }, { name := "b" }]))
    ∃ composed again, compose g ⟨0⟩ editor = .ok composed ∧
      composed.changes.map (·.param.name) = ["a2", "a", "a3"] ∧
      compose composed.graph ⟨0⟩ composed.editor = .ok again ∧
      again.changes = composed.changes.map fun change => .kept change.param := by
  intro edits editor g
  have reached : editor.Reachable := Reachable.empty.foldl_mutate edits
  obtain ⟨holder, there⟩ : ∃ holder, editor.block? ⟨0⟩ = some holder := contains_iff_block.mp (by decide +kernel)
  obtain ⟨block, found⟩ : ∃ block, g.block? ⟨0⟩ = some block := contains_iff_block.mp (by decide +kernel)
  have kind : (editor.block? ⟨0⟩).map (·.kind) = some .paramContainer := by decide +kernel
  have declares : (g.block? ⟨0⟩).map (·.extra.params?.isSome) = some true := by decide +kernel
  rw [there] at kind
  rw [found] at declares
  have names : (compose g ⟨0⟩ editor).toOption.map (·.changes.map (·.param.name)) = some ["a2", "a", "a3"] := by
    decide +kernel
  obtain ⟨container, composed, -, composes, -, -, -, -, -, again, anew, same, -⟩ :=
    compose_settles reached found (Option.some.inj declares) there (Option.some.inj kind) (by decide +kernel)
  rw [composes] at names
  exact ⟨composed, again, composes, Option.some.inj names, anew, same⟩

end ParameterEditor
end RobotBlocks
