import RobotBlocks.Proofs.Session.News
import RobotBlocks.Proofs.Session.Rearrangement

/-! References agree with the declarations of their own graph. A reference agrees when its call, once it has
heard of the events that wait, has the name, the parameters and the return type that the declaring block has
now; a declaration that is gone asks for nothing. -/
namespace RobotBlocks

/-- The roles of a kind show in the state. -/
structure Block.Shaped (block : Block) : Prop where
  reference : block.kind.isReference = block.extra.call?.isSome
  declaration : block.kind.isDeclaration = block.extra.params?.isSome

theorem Block.Alike.shaped {a b : Block} (h : a.Alike b) (shaped : b.Shaped) : a.Shaped :=
  ⟨by rw [h.kind, h.extra]; exact shaped.reference,
    by rw [h.kind, h.extra]; exact shaped.declaration⟩

namespace Graph

variable {g g' : Graph} {r d x id : BlockId} {block : Block} {except : BlockId → Prop}

/-- What every step of a session keeps, whether or not references agree at the moment. Ids are never
used again. -/
structure Steady (g : Graph) : Prop where
  sound : g.Sound
  shaped : ∀ {id block}, g.block? id = some block → block.Shaped
  early : ∀ {id}, g.contains id = true → id.number < g.nextNumber
  known : ∀ {id block call d}, g.block? id = some block → block.extra = .call call →
    call.target.isLocal = true → call.declaration = some d → d.number < g.nextNumber

/-- What waiting events tell last of a declaration holds of it. -/
structure Announced (g : Graph) : Prop extends Steady g where
  heralded : ∀ {d}, g.news d ≠ {} → d.number < g.nextNumber
  holds : ∀ {d declared}, g.block? d = some declared → (g.news d).Of declared

/-- Whether a call shows what a block declares. -/
structure Shows (call : CallState) (declared : Block) : Prop where
  name : call.name = declared.name
  args : some call.args = declared.extra.params?
  returnType : call.returnType = declared.returnType

/-- A reference shows what is declared, or will do so when it has heard of the events that wait. -/
def Agrees (g : Graph) (r : BlockId) : Prop :=
  ∀ block call d declared, g.block? r = some block → block.extra = .call call →
    call.target.isLocal = true → call.declaration = some d → g.block? d = some declared →
    Shows (call.hear (g.news d)) declared

structure Attuned (g : Graph) : Prop extends Announced g where
  agrees : ∀ r, g.Agrees r

theorem Shows.hear {call : CallState} {declared : Block} {news : News} (shows : Shows call declared)
    (holds : news.Of declared) : Shows (call.hear news) declared := by
  obtain ⟨name, params⟩ := news
  refine ⟨?_, ?_, shows.returnType⟩
  · cases name with
    | none => exact shows.name
    | some name => exact (holds.name rfl).symm
  · cases params with
    | none => exact shows.args
    | some params => exact (holds.params rfl).symm

/-- The excepted blocks are there and declare nothing. -/
def Mute (except : BlockId → Prop) (g : Graph) : Prop :=
  ∀ x, except x → ∃ block, g.block? x = some block ∧ block.extra.params? = none

theorem mute_all (g : Graph) : Mute (fun _ => False) g := fun _ none => none.elim

theorem mute_of_call {call : CallState} (found : g.block? x = some block)
    (carried : block.extra = .call call) : Mute (· = x) g := by
  rintro _ rfl
  exact ⟨block, found, by simp [carried, ExtraState.params?]⟩

theorem Alike.shows {a b : Block} {call : CallState} (h : a.Alike b) (shows : Shows call b) :
    Shows call a :=
  ⟨by rw [h.name]; exact shows.name, by rw [h.extra]; exact shows.args,
    by rw [h.returnType]; exact shows.returnType⟩

theorem Alike.holds {a b : Block} {news : News} (h : a.Alike b) (holds : news.Of b) : news.Of a :=
  ⟨fun named => h.name.trans (holds.name named), fun shaped => by rw [h.extra]; exact holds.params shaped,
    fun some => by rw [h.extra]; exact holds.declares some⟩

/-- A declaration that a reference agrees with is no block that declares nothing. -/
theorem Keeps.declared (keeps : Keeps except g g') (mute : Mute except g) {call : CallState}
    {after : Block} (found : g'.block? d = some after)
    (shows : ∀ before, g.block? d = some before → Shows call before) : Shows call after := by
  by_cases excepted : except d
  · obtain ⟨before, there, silent⟩ := mute d excepted
    have args := (shows before there).args
    rw [silent] at args
    cases args
  · obtain ⟨before, there, alike⟩ := keeps d after excepted found
    exact Alike.shows alike (shows before there)

theorem Agrees.calm (agrees : g.Agrees r) (calm : Calm except g g') (mute : Mute except g)
    (apart : ¬ except r) : g'.Agrees r := by
  intro block call d declared found carried isLocal names there
  obtain ⟨before, old, alike⟩ := calm.keeps r block apart found
  rw [alike.extra] at carried
  rw [calm.news_eq]
  exact calm.keeps.declared mute there fun declared here =>
    agrees before call d declared old carried isLocal names here

theorem Mute.present (mute : Mute except g) : ∀ x, except x → g.contains x = true := by
  intro x excepted
  obtain ⟨block, found, -⟩ := mute x excepted
  exact contains_iff_block.mpr ⟨block, found⟩

theorem contains_of_keeps (keeps : Keeps except g g')
    (there : ∀ x, except x → g.contains x = true) (present : g'.contains id = true) :
    g.contains id = true := by
  by_cases excepted : except id
  · exact there id excepted
  · obtain ⟨after, found⟩ := contains_iff_block.mp present
    obtain ⟨before, there, -⟩ := keeps id after excepted found
    exact contains_iff_block.mpr ⟨before, there⟩

/-- A calm edit keeps all as it is when the excepted blocks stay what they are. -/
theorem Steady.calm (steady : g.Steady) (calm : Calm except g g')
    (there : ∀ x, except x → g.contains x = true) (evolves : g.Evolves g')
    (inside : ∀ x after, except x → g'.block? x = some after → after.Shaped ∧
      ∀ call d, after.extra = .call call → call.target.isLocal = true → call.declaration = some d →
        d.number < g.nextNumber) : g'.Steady where
  sound := evolves.sound steady.sound
  shaped {id block} found := by
    by_cases excepted : except id
    · exact (inside id block excepted found).1
    · obtain ⟨before, there, alike⟩ := calm.keeps id block excepted found
      exact alike.shaped (steady.shaped there)
  early present := by
    rw [calm.counter]
    exact steady.early (contains_of_keeps calm.keeps there present)
  known {id block call d} found carried isLocal names := by
    rw [calm.counter]
    by_cases excepted : except id
    · exact (inside id block excepted found).2 call d carried isLocal names
    · obtain ⟨before, there, alike⟩ := calm.keeps id block excepted found
      exact steady.known there (alike.extra ▸ carried) isLocal names

/-- A calm edit tells nothing new, and what was told of a declaration still holds of it. -/
theorem Announced.calm (announced : g.Announced) (calm : Calm except g g') (mute : Mute except g)
    (steady : g'.Steady) : g'.Announced where
  toSteady := steady
  heralded told := by
    rw [calm.counter]
    rw [calm.news_eq] at told
    exact announced.heralded told
  holds {d after} found := by
    rw [calm.news_eq]
    by_cases excepted : except d
    · obtain ⟨before, there, silent⟩ := mute d excepted
      have untold : g.news d = {} := by
        by_contra told
        have declares := (announced.holds there).declares told
        rw [silent] at declares
        cases declares
      rw [untold]
      exact .silent after
    · obtain ⟨before, there, alike⟩ := calm.keeps d after excepted found
      exact Alike.holds alike (announced.holds there)

theorem Attuned.calmAll (attuned : g.Attuned) (calm : CalmAll g g') (evolves : g.Evolves g') : g'.Attuned where
  toAnnounced := attuned.calm calm (mute_all g)
    (attuned.toSteady.calm calm (mute_all g).present evolves fun _ _ none => none.elim)
  agrees r := (attuned.agrees r).calm calm (mute_all g) fun none => none

theorem Steady.queue (steady : g.Steady) (pending : EventQueue) : Steady { g with pending } :=
  ⟨steady.sound.queue pending, steady.shaped, steady.early, steady.known⟩

/-- Other events that tell the same. -/
theorem Attuned.requeue (attuned : g.Attuned) {pending : EventQueue}
    (same : ∀ d, Graph.news { g with pending } d = g.news d) : Attuned { g with pending } where
  toSteady := attuned.toSteady.queue pending
  heralded told := attuned.heralded (same _ ▸ told)
  holds found := same _ ▸ attuned.holds found
  agrees r block call d declared found carried isLocal names there :=
    same d ▸ attuned.agrees r block call d declared found carried isLocal names there

theorem Attuned.drop (attuned : g.Attuned) (quiet : ∀ event ∈ g.pending.toList, event.Quiet) :
    Attuned { g with pending := {} } :=
  attuned.requeue fun d => (news_eq_none quiet d).symm

/-! The oldest event. -/

section Oldest

variable {event : Event} {pending : EventQueue} (waiting : g.pending.toList = event :: pending.toList)
include waiting

theorem Announced.pop (announced : g.Announced) : Announced { g with pending } where
  toSteady := announced.toSteady.queue pending
  heralded {d} told := announced.heralded fun none => told (News.later_eq_none (news_cons waiting d ▸ none))
  holds {d declared} found := by
    have holds := announced.holds found
    rw [news_cons waiting] at holds
    exact holds.later

/-- An event that tells nothing is dispensable. -/
theorem Attuned.pop (attuned : g.Attuned) (silent : ∀ d, event.news d = {}) : Attuned { g with pending } :=
  attuned.requeue fun d => by rw [news_cons waiting, silent, News.none_followedBy]

end Oldest

/-! One reference. -/

/-- Edits of one reference gave it another call. -/
structure Recalled (r : BlockId) (before : Block) (call : CallState) (g g' : Graph) : Prop where
  calm : Calm (· = r) g g'
  evolves : g.Evolves g'
  found : ∃ after, g'.block? r = some after ∧ after.kind = before.kind ∧ after.extra = .call call

section Recall

variable {call call' : CallState} (found : g.block? r = some block) (carried : block.extra = .call call)
include found carried

theorem Steady.isReference (steady : g.Steady) : block.kind.isReference = true := by
  rw [(steady.shaped found).reference, carried]
  rfl

theorem Steady.recalled (steady : g.Steady) (recalled : Recalled r block call' g g')
    (known : call'.target.isLocal = true → ∀ d, call'.declaration = some d →
      d.number < g.nextNumber) : g'.Steady := by
  apply steady.calm recalled.calm (mute_of_call found carried).present recalled.evolves
  intro x after same here
  subst same
  obtain ⟨own, there, kind, extra⟩ := recalled.found
  cases there.symm.trans here
  have shaped := steady.shaped found
  refine ⟨⟨?_, ?_⟩, fun call d isCall isLocal names => ?_⟩
  · rw [kind, extra, shaped.reference, carried]
    rfl
  · rw [kind, extra, shaped.declaration, carried]
    rfl
  · cases extra.symm.trans isCall
    exact known isLocal d names

theorem Announced.recalled (announced : g.Announced) (recalled : Recalled r block call' g g')
    (known : call'.target.isLocal = true → ∀ d, call'.declaration = some d →
      d.number < g.nextNumber) : g'.Announced :=
  announced.calm recalled.calm (mute_of_call found carried)
    (announced.toSteady.recalled found carried recalled known)

theorem Agrees.recalled {other : BlockId} (agrees : g.Agrees other)
    (recalled : Recalled r block call' g g') (apart : other ≠ r) : g'.Agrees other :=
  agrees.calm recalled.calm (mute_of_call found carried) apart

/-- The reference itself agrees when its new call shows what the declaration declared before. -/
theorem Recalled.agrees (recalled : Recalled r block call' g g')
    (shows : call'.target.isLocal = true → ∀ d declared, call'.declaration = some d →
      g.block? d = some declared → Shows (call'.hear (g.news d)) declared) : g'.Agrees r := by
  intro after own d declared here isCall isLocal names there
  obtain ⟨same, mine, -, extra⟩ := recalled.found
  cases mine.symm.trans here
  cases extra.symm.trans isCall
  rw [recalled.calm.news_eq]
  exact recalled.calm.keeps.declared (mute_of_call found carried) there
    (shows isLocal d · names)

end Recall

section Renewal

variable {call : CallState} (sound : g.Sound) (found : g.block? r = some block)
  (reference : block.kind.isReference = true) (carried : block.extra = .call call)
include found reference carried

theorem Recalled.updateCall {edit : CallState → CallState} (h : g.updateCall r edit = .ok g') :
    Recalled r block (edit call) g g' := by
  refine ⟨.updateCall h (refersAt_of_block? found reference).undeclared, .updateCall h, ?_⟩
  obtain ⟨before, own, here, isCall, -, blocks⟩ := updateCall_cases h
  cases found.symm.trans here
  cases carried.symm.trans isCall
  exact ⟨_, (blocks r).trans (if_pos rfl), rfl, rfl⟩

include sound in
theorem Recalled.regenerateArguments {changes : List ParamChange}
    (h : g.regenerateArguments r changes = .ok g') :
    Recalled r block { call with args := changes.map (·.param) } g g' := by
  obtain ⟨same, ran, -, rearranged⟩ := regenerateArguments_ok sound found carried changes
  cases h.symm.trans ran
  exact ⟨(Calm.regenerateArguments changes (refersAt_of_block? found reference)).ok h, .regenerateArguments h,
    ⟨_, rearranged.own sound.tree, rfl, rfl⟩⟩

end Renewal

theorem Recalled.trans {g'' : Graph} {after : Block} {call call' : CallState}
    (first : Recalled r block call g g') (second : Recalled r after call' g' g'')
    (here : g'.block? r = some after) : Recalled r block call' g g'' := by
  refine ⟨first.calm.trans second.calm, first.evolves.trans second.evolves, ?_⟩
  obtain ⟨middle, there, kind, -⟩ := first.found
  cases there.symm.trans here
  obtain ⟨last, found, kind', extra⟩ := second.found
  exact ⟨last, found, kind'.trans kind, extra⟩

theorem Recalled.setWarning {g'' : Graph} {call : CallState} {warning : Option String}
    (recalled : Recalled r block call g g') (h : g'.setWarning r warning = .ok g'') :
    Recalled r block call g g'' := by
  have calm : CalmAll g' g'' := .setWarning h
  refine ⟨recalled.calm.trans (calm.weaken fun _ none => none.elim),
    recalled.evolves.trans (Evolves.allows.setWarning h), ?_⟩
  obtain ⟨middle, there, kind, extra⟩ := recalled.found
  obtain ⟨-, rfl⟩ := setWarning_eq_ok.mp h
  refine ⟨{ middle with warning }, ?_, kind, extra⟩
  rw [block?_updateBlock g' r (fun block => { block with warning }) fun _ same => same]
  simp [there]

/-! All references to one declaration. -/

/-- Some references to one declaration have not heard of the news yet that are carried to them. All others agree. -/
structure Pending (news : News) (d : BlockId) (todo : List BlockId) (g : Graph) : Prop extends Announced g where
  done : ∀ r, r ∉ todo → g.Agrees r
  rest : ∀ r ∈ todo, ∀ block call, g.block? r = some block → block.extra = .call call →
    call.target.isLocal = true ∧ call.declaration = some d ∧
      ∀ declared, g.block? d = some declared → Shows ((call.hear news).hear (g.news d)) declared

/-- An edit that lets any reference hear the news. -/
structure Renews (edit : Graph → BlockId → Except (GraphError × Graph) Graph) (news : News) : Prop where
  refused : ∀ {g r}, (∀ call, g.getCall r ≠ .ok call) → ∃ error, edit g r = .error (error, g)
  carried : ∀ {g r block call}, g.Sound → g.block? r = some block → block.kind.isReference = true →
    block.extra = .call call → ∃ g', edit g r = .ok g' ∧ Recalled r block (call.hear news) g g'

theorem Renews.updateEach {edit : Graph → BlockId → Except (GraphError × Graph) Graph} {news : News}
    (renews : Renews edit news) {todo : List BlockId} (distinct : todo.Nodup) (pending : Pending news d todo g) :
    (updateEach edit g todo).2.Attuned := by
  induction todo generalizing g with
  | nil => exact ⟨pending.toAnnounced, fun r => pending.done r (List.not_mem_nil)⟩
  | cons r todo ih =>
    obtain ⟨once, distinct⟩ := List.nodup_cons.mp distinct
    unfold Graph.updateEach
    by_cases calls : ∃ call, g.getCall r = .ok call
    · obtain ⟨call, got⟩ := calls
      obtain ⟨block, found, carried⟩ := getCall_eq_ok.mp got
      obtain ⟨isLocal, names, shows⟩ := pending.rest r (List.mem_cons_self ..) block call found carried
      obtain ⟨g', ran, recalled⟩ :=
        renews.carried pending.sound found (pending.isReference found carried) carried
      simp only [ran]
      have known : (call.hear news).target.isLocal = true → ∀ d, (call.hear news).declaration = some d →
          d.number < g.nextNumber :=
        fun _ _ same => pending.known found carried isLocal same
      refine ih distinct ⟨pending.recalled found carried recalled known, ?_, ?_⟩
      · intro other away
        by_cases here : other = r
        · subst here
          apply recalled.agrees found carried
          intro _ other declared same there
          cases names.symm.trans same
          exact shows declared there
        · exact (pending.done other fun member => (List.mem_cons.mp member).elim here away).recalled
            found carried recalled here
      · intro other member after own here isCall
        have differs : other ≠ r := fun same => once (same ▸ member)
        obtain ⟨before, old, alike⟩ := recalled.calm.keeps other after differs here
        obtain ⟨isLocal, names, shows⟩ := pending.rest other (List.mem_cons_of_mem _ member) before own
          old (alike.extra ▸ isCall)
        refine ⟨isLocal, names, fun declared there => ?_⟩
        rw [recalled.calm.news_eq]
        exact recalled.calm.keeps.declared (mute_of_call found carried) there shows
    · obtain ⟨error, ran⟩ := renews.refused fun call got => calls ⟨call, got⟩
      simp only [ran]
      refine ih distinct ⟨pending.toAnnounced, fun other away => ?_, fun other member => ?_⟩
      · by_cases here : other = r
        · intro block call d declared found carried
          exact absurd ⟨call, getCall_eq_ok.mpr ⟨block, here ▸ found, carried⟩⟩ calls
        · exact pending.done other fun member => (List.mem_cons.mp member).elim here away
      · exact pending.rest other (List.mem_cons_of_mem _ member)

/-! Renaming and new parameters. -/

theorem getCall_error (h : ∀ call, g.getCall r ≠ .ok call) : ∃ error, g.getCall r = .error error := by
  cases got : g.getCall r with
  | error error => exact ⟨error, rfl⟩
  | ok call => exact absurd got (h call)

theorem renews_name (name : String) :
    Renews (fun g id => (g.updateCall id fun call => { call with name }).mapError (·, g)) { name := some name } where
  refused {g r} h := by
    obtain ⟨error, got⟩ := getCall_error h
    refine ⟨error, ?_⟩
    simp only [Graph.updateCall, got]
    rfl
  carried {g r block call} sound found reference carried := by
    have same : ∀ kind, Socket.declared kind (.call { call with name })
        = Socket.declared kind (.call call) := by
      intro kind
      cases kind <;> rfl
    obtain ⟨g', ran⟩ := updateCall_ok (fun call => { call with name }) found carried (by
      intro socket member _
      rw [(sound.fitted found).sockets, carried] at member
      exact ⟨socket, same block.kind ▸ member, rfl⟩)
    exact ⟨g', mapError_eq_ok.mpr ran, .updateCall found reference carried ran⟩

theorem renews_params (changes : List ParamChange) :
    Renews (fun g id => g.regenerateArguments id changes) { params := some (changes.map (·.param)) } where
  refused {g r} h := by
    obtain ⟨error, got⟩ := getCall_error h
    refine ⟨error, ?_⟩
    simp only [Graph.regenerateArguments, got]
    rfl
  carried sound found reference carried := by
    obtain ⟨g', ran, -⟩ := regenerateArguments_ok sound found carried changes
    exact ⟨g', ran, .regenerateArguments sound found reference carried ran⟩

theorem callersOf_nodup (tree : g.Tree) (d : BlockId) : (g.callersOf d).Nodup :=
  nodup_of_ascending (tree.filter_blocks_ascending (isCallerOf d))

theorem mem_callersOf (tree : g.Tree) : r ∈ g.callersOf d ↔
    ∃ block call, g.block? r = some block ∧ block.kind.isReference = true ∧
      block.extra = .call call ∧ call.target.isLocal = true ∧ call.declaration = some d := by
  simp only [callersOf, tree.mem_filter_blocks, isCallerOf, Bool.and_eq_true,
    Option.any_eq_true, decide_eq_true_iff, call?_eq_some]
  constructor
  · rintro ⟨block, found, reference, call, carried, isLocal, names⟩
    exact ⟨block, call, found, reference, carried, isLocal, names⟩
  · rintro ⟨block, call, found, reference, carried, isLocal, names⟩
    exact ⟨block, found, reference, call, carried, isLocal, names⟩

theorem Tree.refersAt_caller (tree : g.Tree) (member : id ∈ g.callersOf d) : g.RefersAt id := by
  obtain ⟨block, -, found, reference, -⟩ := (mem_callersOf tree).mp member
  exact refersAt_of_block? found reference

/-- The oldest event is to be carried to the references of the declaration that it tells of. -/
theorem Attuned.pending {event : Event} {pending : EventQueue} (attuned : g.Attuned)
    (waiting : g.pending.toList = event :: pending.toList) (others : ∀ other, other ≠ d → event.news other = {}) :
    Pending (event.news d) d (Graph.callersOf { g with pending } d) { g with pending } where
  toAnnounced := attuned.toAnnounced.pop waiting
  done r away block call d' declared found carried isLocal names there := by
    have elsewhere : d' ≠ d := by
      rintro rfl
      refine away ((mem_callersOf (attuned.sound.queue pending)).mpr
        ⟨block, call, found, (attuned.toSteady.queue pending).isReference found carried, carried, isLocal, names⟩)
    have shows := attuned.agrees r block call d' declared found carried isLocal names there
    rwa [news_cons waiting, others d' elsewhere, News.none_followedBy] at shows
  rest r member block call found carried := by
    obtain ⟨own, own_call, here, -, isCall, isLocal, names⟩ :=
      (mem_callersOf (attuned.sound.queue pending)).mp member
    cases here.symm.trans found
    cases isCall.symm.trans carried
    refine ⟨isLocal, names, fun declared there => ?_⟩
    have shows := attuned.agrees r block call d declared found carried isLocal names there
    rwa [news_cons waiting, CallState.hear_followedBy] at shows

end Graph
end RobotBlocks
