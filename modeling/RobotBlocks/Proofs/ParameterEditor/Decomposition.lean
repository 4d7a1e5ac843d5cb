import RobotBlocks.Proofs.ParameterEditor.Composition

/-! Opening a parameter editor. Its items hang one below the other, one for each parameter, and show and remember
the names of the parameters; so an editor that was not edited is read as it was written. -/
namespace RobotBlocks.ParameterEditor

open RobotBlocks.Graph

variable {editor editor' editor'' : Graph} {container item : BlockId} {above : Option BlockId}
  {place : BlockId × Link} {block : Block} {param : Parameter} {params : List Parameter}

/-- An item that shows a parameter as it is and remembers its name. -/
structure Depicts (item : Block) (param : Parameter) : Prop where
  kind : item.kind = .paramItem
  name : item.name = param.name
  type : item.field? Field.type = param.type
  former : item.extra = .paramItem (some param.name)

/-- From a place on, items hang one below the other, one for each parameter. -/
inductive Strung (editor : Graph) : BlockId × Link → List Parameter → Prop where
  | nil {place : BlockId × Link} (free : editor.child? place.1 place.2 = none) : Strung editor place []
  | cons {place : BlockId × Link} {item : BlockId} {block : Block} {param : Parameter} {params : List Parameter}
      (linked : editor.parentLink? item = some place) (found : editor.block? item = some block)
      (depicts : Depicts block param) (below : Strung editor (item, .next) params) :
      Strung editor place (param :: params)

/-! Reading. -/

theorem Strung.depicts (strung : Strung editor place params) (tree : editor.Tree) :
    List.Forall₂ Depicts (((editor.child? place.1 place.2).elim [] editor.stack).filterMap editor.block?) params := by
  induction strung with
  | nil free =>
    rw [free]
    exact .nil
  | @cons place item block param params linked found depicts below ih =>
    rw [tree.child?_eq_some.mpr linked, Option.elim_some, tree.stack_eq (contains_of_parentLink linked),
      List.filterMap_cons_some found]
    exact .cons depicts ih

theorem Strung.queue (strung : Strung editor place params) (pending : EventQueue) :
    Strung { editor with pending } place params := by
  induction strung with
  | nil free => exact .nil free
  | cons linked found depicts _ ih => exact .cons linked found depicts ih

/-! Writing. -/

/-- Where the next item goes: below the one above it, or into the container. -/
def nextPlace (container : BlockId) : Option BlockId → BlockId × Link
  | none => (container, .socket Socket.stack)
  | some above => (above, .next)

/-- Items came in. -/
structure Grows (editor editor' : Graph) : Prop where
  sound : editor'.Sound
  block : ∀ {id}, editor.contains id = true → editor'.block? id = editor.block? id
  link : ∀ {id}, editor.contains id = true → editor'.parentLink? id = editor.parentLink? id
  new : ∀ {id block}, editor'.block? id = some block → editor.contains id = true ∨ block.kind = .paramItem

theorem Grows.refl (sound : editor.Sound) : Grows editor editor :=
  ⟨sound, fun _ => rfl, fun _ => rfl, fun found => .inl (contains_iff_block.mpr ⟨_, found⟩)⟩

theorem Grows.contains (grows : Grows editor editor') {id : BlockId} (present : editor.contains id = true) :
    editor'.contains id = true := by
  rw [contains_iff_block, grows.block present]
  exact contains_iff_block.mp present

theorem Grows.trans (first : Grows editor editor') (second : Grows editor' editor'') : Grows editor editor'' where
  sound := second.sound
  block present := (second.block (first.contains present)).trans (first.block present)
  link present := (second.link (first.contains present)).trans (first.link present)
  new found := (second.new found).elim
    (fun present => first.new ((second.block present).symm.trans found)) .inr

/-- The item that is made for a parameter. -/
def itemFor (id : BlockId) (param : Parameter) : Block where
  id := id
  kind := .paramItem
  fields := (Field.name, param.name) :: (param.type.elim [] fun type => [(Field.type, type)])
  sockets := []
  extra := .paramItem (some param.name)

theorem depicts_itemFor (id : BlockId) (param : Parameter) : Depicts (itemFor id param) param := by
  obtain ⟨name, type⟩ := param
  cases type <;> exact ⟨rfl, rfl, rfl, rfl⟩

/-- An item is made that hangs nowhere yet. -/
theorem draw_ok (sound : editor.Sound) (param : Parameter) :
    ∃ old named drawn, (editor.addBlock .paramItem (.paramItem (some param.name))).2.setField editor.freshId
        Field.name param.name = .ok (old, named) ∧
      (match param.type with
        | some type => Prod.snd <$> named.setField editor.freshId Field.type type
        | none => pure named) = .ok drawn ∧
      drawn.Sound ∧ (∀ id, drawn.parentLink? id = editor.parentLink? id) ∧
      ∀ id, drawn.block? id =
        if id = editor.freshId then some (itemFor editor.freshId param) else editor.block? id := by
  have blocks := editor.block?_addBlock .paramItem (.paramItem (some param.name))
  have links := editor.parentLink?_addBlock .paramItem (.paramItem (some param.name))
  have added := sound.addBlock .paramItem (.paramItem (some param.name))
  obtain ⟨old, named, names⟩ := setField_ok Field.name param.name ((blocks editor.freshId).trans (if_pos rfl))
  have shows : ∀ id, named.block? id
      = if id = editor.freshId then some (itemFor editor.freshId ⟨param.name, none⟩) else editor.block? id := by
    intro id
    rw [block?_setField names, blocks]
    by_cases here : id = editor.freshId
    · simp only [if_pos here]
      rfl
    · simp only [if_neg here]
  refine ⟨old, named, ?_⟩
  obtain ⟨name, type⟩ := param
  cases type with
  | none =>
    refine ⟨named, names, rfl, added.setField names, fun id => ?_, shows⟩
    rw [parentLink?_setField names]
    exact links id
  | some type =>
    obtain ⟨before, drawn, types⟩ := setField_ok Field.type type ((shows editor.freshId).trans (if_pos rfl))
    refine ⟨drawn, names, by simp only [types]; rfl, (added.setField names).setField types, fun id => ?_,
      fun id => ?_⟩
    · rw [parentLink?_setField types, parentLink?_setField names]
      exact links id
    · rw [block?_setField types, shows]
      by_cases here : id = editor.freshId
      · simp only [if_pos here]
        rfl
      · simp only [if_neg here]

/-- A fresh block goes into a free place. -/
theorem hang_ok {holder : Block} (sound : editor.Sound) (there : editor.block? container = some holder)
    (kind : holder.kind = .paramContainer)
    (items : ∀ last, above = some last → ∃ block, editor.block? last = some block ∧ block.kind = .paramItem)
    (found : editor.block? item = some block) (own : block.kind = .paramItem)
    (bare : ∀ child hook, editor.parentLink? child ≠ some (item, hook))
    (apart : (nextPlace container above).1 ≠ item)
    (free : editor.child? (nextPlace container above).1 (nextPlace container above).2 = none) :
    ∃ hung, (match above with
        | none => editor.connectSocket container Socket.stack item
        | some last => editor.connectNext last item) = .ok hung ∧
      hung.Sound ∧ (∀ id, hung.block? id = editor.block? id) ∧
      ∀ id, hung.parentLink? id = if id = item then some (nextPlace container above) else editor.parentLink? id := by
  have tree := sound.tree
  have present := contains_iff_block.mpr ⟨block, found⟩
  -- Nothing hangs from the item, so the place is not below it.
  have climbs : ¬ editor.Climbs (nextPlace container above).1 item := by
    intro climbs
    rcases Relation.ReflTransGen.cases_tail climbs with same | ⟨child, -, step⟩
    · exact apart same.symm
    · obtain ⟨hook, linked⟩ := step.exists_link
      exact bare child hook linked
  have value : ¬ editor.IsValue item := by
    rw [isValue_iff found, own]
    decide
  have lands : ∀ {hung : Graph} {left : Option (BlockId × Link)},
      Takes editor hung item (nextPlace container above) left → ∀ id,
        hung.parentLink? id = if id = item then some (nextPlace container above) else editor.parentLink? id := by
    intro hung left takes id
    rw [takes.links, if_neg (tree.child?_eq_none.mp free id)]
  cases above with
  | none =>
    have offered : editor.socketKind? container Socket.stack = some .statement := by
      refine socketKind?_eq_some.mpr ⟨holder, there, ?_⟩
      rw [Block.socket?, (sound.fitted there).sockets, kind]
      rfl
    obtain ⟨hung, hangs⟩ : ∃ hung, editor.connectSocket container Socket.stack item = .ok hung :=
      tree.ok_connectSocket_iff.mpr ⟨contains_iff_block.mpr ⟨holder, there⟩, present, climbs, by simp [offered],
        fun both => value both.2⟩
    obtain ⟨_, -, takes⟩ := tree.takes_socket hangs
    exact ⟨hung, hangs, sound.connectSocket hangs, takes.moves.blocks, lands takes⟩
  | some last =>
    obtain ⟨block, there, kind⟩ := items last rfl
    have statement : ¬ editor.IsValue last := by
      rw [isValue_iff there, kind]
      decide
    obtain ⟨hung, hangs⟩ := tree.ok_connectNext_iff.mpr
      ⟨contains_iff_block.mpr ⟨block, there⟩, present, climbs, value, statement⟩
    have takes := tree.takes_next hangs
    exact ⟨hung, hangs, sound.connectNext hangs, takes.moves.blocks, lands takes⟩

theorem older_than_fresh {id : BlockId} (present : editor.contains id = true) : id ≠ editor.freshId := by
  rintro rfl
  cases editor.freshId_fresh.symm.trans present

/-- One item more. -/
theorem addItem_ok {holder : Block} (sound : editor.Sound) (there : editor.block? container = some holder)
    (kind : holder.kind = .paramContainer)
    (items : ∀ last, above = some last → ∃ block, editor.block? last = some block ∧ block.kind = .paramItem)
    (free : editor.child? (nextPlace container above).1 (nextPlace container above).2 = none) (param : Parameter) :
    ∃ hung, (∀ params, addItems container editor above (param :: params)
        = addItems container hung (some editor.freshId) params) ∧
      (nextPlace container above).1 ≠ editor.freshId ∧ hung.Sound ∧
      (∀ id, hung.block? id = if id = editor.freshId then some (itemFor editor.freshId param) else editor.block? id) ∧
      ∀ id, hung.parentLink? id
        = if id = editor.freshId then some (nextPlace container above) else editor.parentLink? id := by
  have bare : ∀ child hook, editor.parentLink? child ≠ some (editor.freshId, hook) := fun child hook linked =>
    older_than_fresh (sound.tree.contains_parent (up_of_parentLink linked)) rfl
  have apart : (nextPlace container above).1 ≠ editor.freshId := by
    cases above with
    | none => exact older_than_fresh (contains_iff_block.mpr ⟨holder, there⟩)
    | some last =>
      obtain ⟨block, found, -⟩ := items last rfl
      exact older_than_fresh (contains_iff_block.mpr ⟨block, found⟩)
  obtain ⟨old, named, drawn, names, types, sound', links, blocks⟩ := draw_ok sound param
  have keeps : ∀ {id block}, editor.block? id = some block → drawn.block? id = some block := fun found =>
    (blocks _).trans ((if_neg (older_than_fresh (contains_iff_block.mpr ⟨_, found⟩))).trans found)
  obtain ⟨hung, hangs, sound'', blocks', links'⟩ := hang_ok sound' (keeps there) kind
    (fun last same => (items last same).imp fun block ⟨found, kind⟩ => ⟨keeps found, kind⟩)
    ((blocks _).trans (if_pos rfl)) rfl (fun child hook => links child ▸ bare child hook) apart
    (sound'.tree.child?_eq_none.mpr fun child => links child ▸ sound.tree.child?_eq_none.mp free child)
  refine ⟨hung, fun params => ?_, apart, sound'', fun id => (blocks' id).trans (blocks id), fun id => ?_⟩
  · have made : (editor.addBlock .paramItem (.paramItem (some param.name))).1 = editor.freshId := rfl
    rw [addItems]
    simp only [made, names, ok_bind]
    cases typed : param.type <;> simp only [typed] at types <;> cases above <;>
      simp only [types, hangs, ok_bind]
  · rw [links', links]

/-- One item after the other goes below the one before it. -/
theorem addItems_ok {holder : Block} (sound : editor.Sound) (there : editor.block? container = some holder)
    (kind : holder.kind = .paramContainer)
    (items : ∀ last, above = some last → ∃ block, editor.block? last = some block ∧ block.kind = .paramItem)
    (free : editor.child? (nextPlace container above).1 (nextPlace container above).2 = none)
    (params : List Parameter) : ∃ editor', addItems container editor above params = .ok editor' ∧ Grows editor editor' ∧
      Strung editor' (nextPlace container above) params := by
  induction params generalizing editor above with
  | nil => exact ⟨editor, rfl, .refl sound, .nil free⟩
  | cons param params ih =>
    obtain ⟨hung, adds, apart, sound', blocks, links⟩ := addItem_ok sound there kind items free param
    have shown : hung.block? editor.freshId = some (itemFor editor.freshId param) := (blocks _).trans (if_pos rfl)
    have linked := (links editor.freshId).trans (if_pos rfl)
    have grows : Grows editor hung := by
      refine ⟨sound', fun present => (blocks _).trans (if_neg (older_than_fresh present)),
        fun present => (links _).trans (if_neg (older_than_fresh present)), fun {id block} found => ?_⟩
      by_cases here : id = editor.freshId
      · subst here
        cases shown.symm.trans found
        exact .inr rfl
      · exact .inl (contains_iff_block.mpr ⟨block, ((blocks id).trans (if_neg here)).symm.trans found⟩)
    have last : hung.child? editor.freshId .next = none := by
      refine sound'.tree.child?_eq_none.mpr fun child below => ?_
      rw [links] at below
      split at below
      · exact apart (congrArg Prod.fst (Option.some.inj below))
      · exact older_than_fresh (sound.tree.contains_parent (up_of_parentLink below)) rfl
    obtain ⟨editor', runs, grows', strung⟩ := @ih hung (some editor.freshId) sound'
      ((grows.block (contains_iff_block.mpr ⟨holder, there⟩)).trans there)
      (fun last same => ⟨_, Option.some.inj same ▸ shown, rfl⟩) last
    have present := contains_of_parentLink linked
    exact ⟨editor', (adds params).trans runs, grows.trans grows', .cons ((grows'.link present).trans linked)
      ((grows'.block present).trans shown) (depicts_itemFor ..) strung⟩

/-! Opening. -/

section Open

variable {g : Graph} {d : BlockId} {declared : Block}

/-- An editor has a container, and in it an item for each parameter. -/
theorem decompose_ok (declares : g.getParams d = .ok params) :
    ∃ container editor, decompose g d = .ok editor ∧ editor.Sound ∧ container? editor = some container ∧
      Strung editor (container, .socket Socket.stack) params := by
  have blocks := Graph.empty.block?_addBlock .paramContainer .none
  have links := Graph.empty.parentLink?_addBlock .paramContainer .none
  have sound : (Graph.empty.addBlock .paramContainer .none).2.Sound := Sound.empty.addBlock .paramContainer .none
  have there := (blocks _).trans (if_pos rfl)
  have free : (Graph.empty.addBlock .paramContainer .none).2.child? (nextPlace Graph.empty.freshId none).1
      (nextPlace Graph.empty.freshId none).2 = none := by
    refine sound.tree.child?_eq_none.mpr fun child linked => ?_
    cases (links child).symm.trans linked
  obtain ⟨editor, adds, grows, strung⟩ := addItems_ok sound there (Block.kind_create ..)
    (fun last none => nomatch (none : Option.none = some last)) free params
  have only : ∀ {id block}, editor.block? id = some block → block.kind = .paramContainer →
      id = Graph.empty.freshId := by
    intro id block found kind
    rcases grows.new found with old | item
    · by_contra apart
      obtain ⟨block, found⟩ := contains_iff_block.mp old
      cases ((blocks id).trans (if_neg apart)).symm.trans found
    · cases kind.symm.trans item
  have present : (Graph.empty.addBlock .paramContainer .none).2.contains Graph.empty.freshId = true :=
    contains_iff_block.mpr ⟨_, there⟩
  obtain ⟨container, holds⟩ := container?_ok grows.sound.tree ((grows.block present).trans there)
    (Block.kind_create ..) (by rw [parent?, grows.link present]; exact congrArg _ (links _))
  have own : container = Graph.empty.freshId := by
    have kinds : (editor.block? container).any (fun block => block.kind = .paramContainer) = true := by
      unfold container? at holds
      simpa using List.find?_some holds
    obtain ⟨block, found, kind⟩ := (Option.any_eq_true _ _).mp kinds
    exact only found (by simpa using kind)
  refine ⟨container, _, ?_, grows.sound.queue {}, holds, own ▸ strung.queue {}⟩
  have made : (Graph.empty.addBlock .paramContainer .none).1 = Graph.empty.freshId := rfl
  simp only [decompose, declares, made, adds, ok_bind]
  rfl

theorem sound_decompose {editor : Graph} (opened : decompose g d = .ok editor) : editor.Sound := by
  have asked := opened
  simp only [decompose, bind_eq_ok] at asked
  obtain ⟨params, declares, -⟩ := asked
  obtain ⟨container, editor', opens, sound, -⟩ := decompose_ok declares
  cases opens.symm.trans opened
  exact sound

end Open

end RobotBlocks.ParameterEditor
