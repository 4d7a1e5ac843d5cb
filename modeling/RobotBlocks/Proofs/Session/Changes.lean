import RobotBlocks.Proofs.Session.Handling

/-! The edits of a graph that an operation starts with: a new block, a field, the name or the
parameters of a declaration. Together with what they carry to the references they leave all
references in agreement. -/
namespace RobotBlocks

namespace Labelled

variable {α : Type}

theorem get?_filter (entries : Labelled α) (keep : String → Bool) (label : String) :
    get? (entries.filter fun (name, _) => keep name) label
      = if keep label then entries.get? label else none := by
  induction entries with
  | nil => simp [get?]
  | cons entry rest ih =>
    obtain ⟨name, value⟩ := entry
    by_cases kept : keep name = true
    · rw [List.filter_cons_of_pos (by simpa using kept)]
      by_cases here : name = label
      · subst here
        simp [get?, kept]
      · simp [get?, here, ih]
    · rw [List.filter_cons_of_neg (by simpa using kept), ih]
      by_cases here : name = label
      · subst here
        simp [kept]
      · simp [get?, here]

end Labelled

/-- Showing parameters leaves the name alone. -/
theorem Block.name_showParams (block : Block) : block.showParams.name = block.name := by
  unfold Block.showParams
  split
  · rfl
  · next params _ =>
    have kept : Field.isParam Field.name = false := by decide
    have unknown : Field.name ∉ (paramFields 0 params).labels := by
      rw [labels_paramFields]
      intro member
      obtain ⟨index, -, same⟩ := List.mem_map.mp member
      have shown := Field.isParam_param index
      simp [same, kept] at shown
    simp only [Block.name, Block.fieldD, Block.field?, Labelled.get?_append,
      Labelled.get?_eq_none unknown, Option.or_none]
    rw [Labelled.get?_filter block.fields (fun name => !Field.isParam name)]
    simp [kept]

namespace Graph

variable {g g' : Graph} {id d : BlockId} {block : Block}

theorem Evolves.nextNumber (evolves : g.Evolves g') : g'.nextNumber = g.nextNumber := by
  induction evolves with
  | refl => rfl
  | edit _ edit kept ran ih => exact (Persists.run kept ran).counter.trans ih
  | queue _ pending ih => exact ih

/-! Creation. -/

theorem freshId_eq (steady : g.Steady) : g.freshId = ⟨g.nextNumber⟩ := by
  unfold freshId
  rw [if_neg]
  intro present
  exact Nat.lt_irrefl _ (steady.early present)

theorem block?_created (g : Graph) (kind : Kind) (extra : ExtraState) :
    (g.place (.create g.freshId kind extra)).block? g.freshId
      = some (.create g.freshId kind extra) :=
  (block?_addBlock kind extra g.freshId).trans (if_pos rfl)

/-- A block under a new id, to which nothing refers yet. -/
theorem Attuned.place (block : Block) (attuned : g.Attuned) (room : g.nextNumber < BlockId.last.number)
    (fresh : block.id = ⟨g.nextNumber⟩) (derived : block.Derived) (shaped : block.Shaped)
    (shows : ∀ call d, block.extra = .call call → call.target.isLocal = true →
      call.declaration = some d →
      d.number < g.nextNumber ∧ ∀ declared, g.block? d = some declared → Shows call declared) :
    (g.place block).Attuned := by
  have absent : g.contains block.id = false := by
    rw [← Bool.not_eq_true, fresh]
    exact fun present => Nat.lt_irrefl _ (attuned.early present)
  have blocks : ∀ asked, (g.place block).block? asked
      = if asked = block.id then some block else g.block? asked := block?_place absent
  have counter : (g.place block).nextNumber = g.nextNumber + 1 := by
    simp only [Graph.place, emit, Graph.push, fresh, room, if_true]
    omega
  have news : ∀ d, (g.place block).news d = g.news d := by
    intro d
    rw [news_push (EventQueue.toList_push ..), Event.news_created, News.followedBy_none]
    rfl
  have known : ∀ {r own call d}, (g.place block).block? r = some own →
      own.extra = .call call → call.target.isLocal = true → call.declaration = some d →
      d.number < g.nextNumber ∧
        ∀ declared, g.block? d = some declared → Shows (call.hear (g.news d)) declared := by
    intro r own call d found carried isLocal names
    rw [blocks] at found
    split at found
    · cases found
      obtain ⟨early, shows⟩ := shows call d carried isLocal names
      exact ⟨early, fun declared there => (shows declared there).hear (attuned.holds there)⟩
    · exact ⟨attuned.known found carried isLocal names,
        fun declared there => attuned.agrees r own call d declared found carried isLocal names there⟩
  refine ⟨⟨⟨attuned.sound.place absent derived, ?_, ?_, ?_⟩, ?_, ?_⟩, ?_⟩
  · intro asked own found
    rw [blocks] at found
    split at found
    · cases found
      exact shaped
    · exact attuned.shaped found
  · intro asked present
    rw [counter]
    obtain ⟨own, found⟩ := contains_iff_block.mp present
    rw [blocks] at found
    split at found
    · next here =>
      rw [here, fresh]
      exact Nat.lt_succ_self _
    · exact Nat.lt_succ_of_lt (attuned.early (contains_iff_block.mpr ⟨own, found⟩))
  · intro r own call d found carried isLocal names
    rw [counter]
    exact Nat.lt_succ_of_lt (known found carried isLocal names).1
  · intro d told
    rw [counter]
    exact Nat.lt_succ_of_lt (attuned.heralded (news d ▸ told))
  · intro d declared there
    rw [news]
    rw [blocks] at there
    split at there
    · next here =>
      have untold : g.news d = {} := by
        by_contra told
        have early := attuned.heralded told
        rw [here, fresh] at early
        exact Nat.lt_irrefl _ early
      rw [untold]
      exact .silent declared
    · exact attuned.holds there
  · intro r own call d declared found carried isLocal names there
    obtain ⟨early, shows⟩ := known found carried isLocal names
    rw [news]
    rw [blocks, if_neg] at there
    · exact shows declared there
    · intro same
      rw [same, fresh] at early
      exact Nat.lt_irrefl _ early

/-- A field of a block that declares nothing. -/
theorem Attuned.setField {name value : String} {old : Option String} (attuned : g.Attuned)
    (found : g.block? id = some block) (undeclared : block.kind.isDeclaration = false)
    (h : g.setField id name value = .ok (old, g')) : g'.Attuned := by
  have calm : Calm (· = id) g g' := by
    refine .setField h fun other same => ?_
    cases found.symm.trans same
    exact undeclared
  have shaped := attuned.shaped found
  have silent : block.extra.params? = none := by
    rw [shaped.declaration] at undeclared
    simpa using undeclared
  have mute : Mute (· = id) g := by
    rintro _ rfl
    exact ⟨block, found, silent⟩
  have after : ∀ {own}, g'.block? id = some own → own.kind = block.kind ∧ own.extra = block.extra := by
    intro own there
    rw [block?_setField h, if_pos rfl, found] at there
    cases there
    exact ⟨rfl, rfl⟩
  refine ⟨attuned.calm calm mute (attuned.toSteady.calm calm mute.present (.setField h) ?_), fun r => ?_⟩
  · intro x own same there
    subst same
    obtain ⟨kind, extra⟩ := after there
    refine ⟨⟨?_, ?_⟩, fun call d carried isLocal names => ?_⟩
    · rw [kind, extra, shaped.reference]
    · rw [kind, extra, shaped.declaration]
    · exact attuned.known found (extra ▸ carried) isLocal names
  · by_cases here : r = id
    · subst here
      intro own call d declared there carried isLocal names declares
      rw [calm.news_eq]
      apply calm.keeps.declared mute declares
      intro before was
      exact attuned.agrees r block call d before found ((after there).2 ▸ carried) isLocal names was
    · exact (attuned.agrees r).calm calm mute here

/-- The state of a fresh call shows the declaration. -/
theorem callStateFor_shows {call : CallState} (h : g.callStateFor d = .ok call) :
    ∃ declared, g.block? d = some declared ∧ call.declaration = some d ∧ Shows call declared := by
  simp only [callStateFor, bind_eq_ok, get_eq_ok] at h
  obtain ⟨declared, found, h⟩ := h
  refine ⟨declared, found, ?_⟩
  split at h
  · next params shape =>
    cases pure_eq_ok.mp h
    exact ⟨rfl, rfl, by simp [shape, ExtraState.params?], by simp [Block.returnType, shape]⟩
  · next state shape =>
    cases pure_eq_ok.mp h
    exact ⟨rfl, rfl, by simp [shape, ExtraState.params?], by simp [Block.returnType, shape]⟩
  · exact absurd h throw_ne_ok

/-- A fresh call shows its name in a field, which changes nothing else. -/
theorem Attuned.placeCall {call : CallState} {value : String} {old : Option String} (attuned : g.Attuned)
    (room : g.nextNumber < BlockId.last.number) (asked : g.callStateFor d = .ok call)
    (h : (g.place (.create g.freshId .methodCall (.call call))).setField g.freshId Field.name value
      = .ok (old, g')) : g'.Attuned := by
  obtain ⟨declared, there, names, shows⟩ := callStateFor_shows asked
  have placed := attuned.place (.create g.freshId .methodCall (.call call)) room
    (by rw [Block.id_create, freshId_eq attuned.toSteady]) (Block.create_derived _ _ _)
    ⟨by simp [Kind.isReference, ExtraState.call?], by simp [Kind.isDeclaration, ExtraState.params?]⟩
    (by
      intro own other carried isLocal same
      rw [Block.extra_create] at carried
      cases carried
      cases names.symm.trans same
      refine ⟨attuned.early (contains_iff_block.mpr ⟨declared, there⟩), fun block found => ?_⟩
      cases there.symm.trans found
      exact shows)
  exact placed.setField (block?_created ..) (by rw [Block.kind_create]; rfl) h

/-! Changes of a declaration. -/

/-- Another value of a field is told. -/
theorem pending_setField {name value : String} {old : Option String}
    (found : g.block? id = some block) (differs : block.field? name ≠ some value)
    (h : g.setField id name value = .ok (old, g')) :
    g'.pending.toList
      = g.pending.toList ++ [.onBlock id block.kind (.fieldChanged name (block.field? name) value)] := by
  obtain ⟨own, here, rfl, same⟩ := setField_cases h
  cases found.symm.trans here
  dsimp only at same
  rw [same, if_neg differs]
  simp [emit, Graph.push, Graph.updateBlock, Graph.updateNode]

theorem pending_setSignature {changes : List ParamChange} (found : g.block? id = some block)
    (h : g.setSignature id changes = .ok g') :
    g'.pending.toList = g.pending.toList ++ [.onBlock id block.kind (.signatureChanged changes)] := by
  obtain ⟨own, here, -, same⟩ := setSignature_cases h
  cases found.symm.trans here
  rw [same]
  simp [emit, Graph.push, Graph.updateBlock, Graph.updateNode]

/-- It is the only event, if none waited before. -/
theorem waiting_setField {name value : String} {old : Option String} (idle : g.pending.toList = [])
    (found : g.block? id = some block) (differs : block.field? name ≠ some value)
    (h : g.setField id name value = .ok (old, g')) :
    g'.pending.toList = [.onBlock id block.kind (.fieldChanged name (block.field? name) value)] := by
  rw [pending_setField found differs h, idle, List.nil_append]

theorem waiting_setSignature {changes : List ParamChange} (idle : g.pending.toList = [])
    (found : g.block? id = some block) (h : g.setSignature id changes = .ok g') :
    g'.pending.toList = [.onBlock id block.kind (.signatureChanged changes)] := by
  rw [pending_setSignature found h, idle, List.nil_append]

/-- A new name or new parameters of a declaration. -/
structure Redeclared (d : BlockId) (g g' : Graph) : Prop where
  keeps : Keeps (· = d) g g'
  evolves : g.Evolves g'
  changed : ∀ after, g'.block? d = some after → ∃ before, g.block? d = some before ∧
    after.kind = before.kind ∧ after.extra.call? = none ∧
    after.extra.params?.isSome = before.extra.params?.isSome ∧ before.extra.call? = none

theorem Steady.redeclared (steady : g.Steady) (redeclared : Redeclared d g g')
    (present : g.contains d = true) : g'.Steady := by
  -- Nothing is calm about the event of the change, so the events are left aside.
  have calm : Calm (· = d) { g with pending := {} } { g' with pending := {} } :=
    .silent redeclared.keeps redeclared.evolves.nextNumber rfl
  have evolves : Evolves { g with pending := {} } { g' with pending := {} } :=
    (Evolves.refl.queue g.pending).trans (redeclared.evolves.queue {})
  have steady' : Steady { g' with pending := {} } := by
    apply (steady.queue {}).calm calm (fun x same => same ▸ present) evolves
    intro x after same found
    subst same
    obtain ⟨before, there, kind, silent, params, was⟩ := redeclared.changed after found
    have shaped := steady.shaped there
    refine ⟨⟨?_, ?_⟩, fun call d carried => ?_⟩
    · rw [kind, silent, shaped.reference, was]
    · rw [kind, params, shaped.declaration]
    · simp [carried, ExtraState.call?] at silent
  exact steady'.queue g'.pending

/-- The references of a declaration agree with it again once they have heard of the change. -/
theorem Attuned.redeclared {event : Event} {before after : Block} (attuned : g.Attuned)
    (redeclared : Redeclared d g g') (told : g'.pending.toList = g.pending.toList ++ [event])
    (others : ∀ other, other ≠ d → event.news other = {})
    (found : g.block? d = some before) (found' : g'.block? d = some after)
    (shows : ∀ call, Shows call before → Shows (call.hear (event.news d)) after)
    (holds : ∀ earlier : News, earlier.Of before → (earlier.followedBy (event.news d)).Of after) : g'.Attuned := by
  have present := contains_iff_block.mpr ⟨before, found⟩
  have elsewhere : ∀ other, other ≠ d → g'.news other = g.news other := by
    intro other apart
    rw [news_push told, others other apart, News.followedBy_none]
  refine ⟨⟨attuned.toSteady.redeclared redeclared present, fun {other} some => ?_, fun {other declared} there => ?_⟩,
    fun r block call other declared here carried isLocal names there => ?_⟩
  · rw [redeclared.evolves.nextNumber]
    by_cases own : other = d
    · exact own ▸ attuned.early present
    · exact attuned.heralded (elsewhere other own ▸ some)
  · by_cases own : other = d
    · subst own
      cases found'.symm.trans there
      rw [news_push told]
      exact holds _ (attuned.holds found)
    · obtain ⟨was, old, alike⟩ := redeclared.keeps other declared own there
      rw [elsewhere other own]
      exact Alike.holds alike (attuned.holds old)
  · have apart : r ≠ d := by
      rintro rfl
      cases found'.symm.trans here
      obtain ⟨-, -, -, silent, -⟩ := redeclared.changed after found'
      simp [carried, ExtraState.call?] at silent
    obtain ⟨was, old, alike⟩ := redeclared.keeps r block apart here
    rw [alike.extra] at carried
    by_cases own : other = d
    · subst own
      cases found'.symm.trans there
      rw [news_push told, CallState.hear_followedBy]
      exact shows _ (attuned.agrees r was call other before old carried isLocal names found)
    · obtain ⟨declares, was', same⟩ := redeclared.keeps other declared own there
      rw [elsewhere other own]
      exact Alike.shows same (attuned.agrees r was call other declares old carried isLocal names was')

theorem Redeclared.setField {value : String} {old : Option String} (steady : g.Steady)
    (found : g.block? d = some block) (declares : block.kind.isDeclaration = true)
    (h : g.setField d Field.name value = .ok (old, g')) : Redeclared d g g' := by
  have blocks := block?_setField h
  refine ⟨fun asked after apart there => ⟨after, ?_, .refl after⟩,
    .setField h, fun after there => ?_⟩
  · rwa [blocks, if_neg apart] at there
  · rw [blocks, if_pos rfl, found] at there
    cases there
    have shaped := steady.shaped found
    have params : block.extra.params?.isSome = true := shaped.declaration ▸ declares
    have silent : block.extra.call? = none := by
      cases shape : block.extra <;> simp [shape, ExtraState.params?, ExtraState.call?] at params ⊢
    exact ⟨block, found, rfl, silent, rfl, silent⟩

theorem call?_of_params {extra : ExtraState} (declares : extra.params?.isSome = true)
    (params : List Parameter) : extra.call? = none ∧ (extra.withParams params).call? = none ∧
      (extra.withParams params).params? = some params := by
  cases extra <;> simp [ExtraState.params?, ExtraState.call?, ExtraState.withParams] at declares ⊢

theorem Redeclared.setSignature {changes : List ParamChange}
    (h : g.setSignature d changes = .ok g') : Redeclared d g g' := by
  have blocks := block?_setSignature h
  obtain ⟨block, found, declares, -⟩ := setSignature_cases h
  refine ⟨fun asked after apart there => ⟨after, ?_, .refl after⟩,
    .of_run (.setSignature d changes) rfl h, fun after there => ?_⟩
  · rwa [blocks, if_neg apart] at there
  · rw [blocks, if_pos rfl, found] at there
    cases there
    obtain ⟨silent, silent', params⟩ := call?_of_params declares (changes.map (·.param))
    refine ⟨block, found, ?_, ?_, ?_, silent⟩
    · exact Block.kind_showParams _
    · rw [Block.extra_showParams]
      exact silent'
    · rw [Block.extra_showParams, params, declares]
      rfl

/-- A new name is heard of by the references. -/
theorem Attuned.renamed {value : String} {old : Option String} (attuned : g.Attuned) (found : g.block? d = some block)
    (declares : block.kind.isDeclaration = true) (differs : block.field? Field.name ≠ some value)
    (h : g.setField d Field.name value = .ok (old, g')) : g'.Attuned := by
  have after : g'.block? d = some { block with fields := block.fields.put Field.name value } := by
    rw [block?_setField h, if_pos rfl, found]
    rfl
  have named : Block.name { block with fields := block.fields.put Field.name value } = value := by
    simp [Block.name, Block.fieldD, Block.field?]
  have params : block.extra.params?.isSome = true := (attuned.shaped found).declaration ▸ declares
  refine attuned.redeclared (.setField attuned.toSteady found declares h) (pending_setField found differs h)
    (fun other apart => Event.news_of_other (.inl apart)) found after (fun call shows => ?_) fun earlier holds => ?_
  · rw [Event.news_renamed declares]
    exact ⟨named.symm, shows.args, shows.returnType⟩
  · rw [Event.news_renamed declares]
    refine ⟨fun told => ?_, fun told => holds.params ?_, fun _ => params⟩
    · cases told
      exact named
    · simpa [News.followedBy] using told

/-- New parameters are heard of by the references. -/
theorem Attuned.reshaped {changes : List ParamChange} (attuned : g.Attuned)
    (h : g.setSignature d changes = .ok g') : g'.Attuned := by
  obtain ⟨block, found, asks, -⟩ := setSignature_cases h
  have declares : block.kind.isDeclaration = true := (attuned.shaped found).declaration ▸ asks
  have after := block?_setSignature h d
  rw [if_pos rfl, found, Option.map_some] at after
  have params : (Block.showParams { block with extra := block.extra.withParams (changes.map (·.param)) }).extra.params?
      = some (changes.map (·.param)) := by
    rw [Block.extra_showParams]
    exact (call?_of_params asks _).2.2
  refine attuned.redeclared (.setSignature h) (pending_setSignature found h)
    (fun other apart => Event.news_of_other (.inl apart)) found after (fun call shows => ?_) fun earlier holds => ?_
  · rw [Event.news_reshaped declares]
    refine ⟨?_, params.symm, ?_⟩
    · rw [Block.name_showParams]
      exact shows.name
    · refine shows.returnType.trans ?_
      simp only [Block.returnType, Block.extra_showParams]
      cases block.extra <;> rfl
  · rw [Event.news_reshaped declares]
    refine ⟨fun told => ?_, fun told => ?_, fun _ => by rw [params]; rfl⟩
    · rw [Block.name_showParams]
      exact holds.name (by simpa [News.followedBy] using told)
    · cases told
      exact params

end Graph
end RobotBlocks
