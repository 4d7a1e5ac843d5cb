import RobotBlocks.Proofs.Code.Names
import RobotBlocks.Proofs.Session.Loading
import RobotBlocks.Proofs.Session.Whole

/-! The names of declarations. In whatever way a session is edited, two events or two definitions that
have a name never have the same one, and there are no blanks around it: a name that is taken is refused, one
that is accepted is trimmed first, and what is answered to events gives new names to references alone. The
methods of the class are named after the identifiers of the definitions, though, and those may still be the
same. -/
namespace RobotBlocks

namespace Graph

variable {g g' g'' : Graph} {id : BlockId} {block : Block} {except about : BlockId → Prop} {scope : Scope}
  {own : Declarations}

/-- Edits that give new names to references alone and tell of no creation. -/
structure Spells (g g' : Graph) : Prop where
  reports : Reports (fun _ => True) g g'
  names : ∀ {id before after}, g.block? id = some before → g'.block? id = some after →
    before.kind.isReference = false → after.name = before.name

namespace Spells

theorem of_keeps (reports : Reports (fun _ => True) g g') (keeps : Keeps except g g')
    (refer : ∀ id, except id → g.RefersAt id) : Spells g g' := by
  refine ⟨reports, fun {id before after} here there silent => ?_⟩
  have apart : ¬ except id := fun excepted => by
    rw [refer id excepted before here] at silent
    cases silent
  obtain ⟨same, found, alike⟩ := keeps id after apart there
  cases here.symm.trans found
  exact alike.name

theorem refl (g : Graph) : Spells g g := by
  have calm : Calm (fun _ => False) g g := .refl g
  exact of_keeps (.refl g) calm.keeps fun _ none => none.elim

theorem trans (h : Spells g g') (k : Spells g' g'') : Spells g g'' := by
  refine ⟨h.reports.trans k.reports, fun {id before after} here there silent => ?_⟩
  obtain ⟨middle, found, -⟩ := k.reports.kinds there
  obtain ⟨same, here', kind⟩ := h.reports.kinds found
  cases here.symm.trans here'
  exact (k.names found there (kind ▸ silent)).trans (h.names here found silent)

theorem refersAt (h : Spells g g') (refers : g.RefersAt id) : g'.RefersAt id := refers.reports h.reports

theorem allows : Allows Spells where
  refl := refl
  trans := trans
  unplug h := of_keeps (Reports.allows.unplug h) (Calm.unplug h).keeps fun _ none => none.elim
  connectSocket h := of_keeps (Reports.allows.connectSocket h) (Calm.connectSocket h).keeps
    fun _ none => none.elim
  deleteBlock h := of_keeps (Reports.allows.deleteBlock h) (Calm.deleteBlock h).keeps fun _ none => none.elim
  setWarning h := of_keeps (Reports.allows.setWarning h) (Calm.setWarning h).keeps fun _ none => none.elim

theorem connectNext {previous : BlockId} (h : g.connectNext previous id = .ok g') : Spells g g' :=
  of_keeps (.connectNext h) (Calm.connectNext h).keeps fun _ none => none.elim

theorem updateCall {edit : CallState → CallState} (h : g.updateCall id edit = .ok g')
    (refers : g.RefersAt id) : Spells g g' := by
  refine of_keeps ((Reports.updateCall h).weaken fun _ _ => trivial)
    (Calm.updateCall h refers.undeclared).keeps ?_
  rintro _ rfl
  exact refers

theorem answers : Answers RefersAt Spells where
  toRearranges := allows.toRearranges
  stays spells refers := spells.refersAt refers
  setWarning _ := allows.setWarning
  updateCall refers h _ := updateCall h refers

end Spells

/-! What is kept between operations. -/

/-- Declarations of one kind that have a name have different ones. -/
def Apart (g : Graph) : Prop :=
  ∀ a b one other, g.block? a = some one → g.block? b = some other → one.kind.isDeclaration = true →
    one.name ≠ "" → other.kind = one.kind → other.name = one.name → a = b

/-- There are no blanks around the names of declarations. -/
def Neat (g : Graph) : Prop :=
  ∀ id block, g.block? id = some block → block.kind.isDeclaration = true → Text.trim block.name = block.name

/-- Every declaration of a graph had its name in another one, too. -/
def NamesFrom (g g' : Graph) : Prop :=
  ∀ {id after}, g'.block? id = some after → after.kind.isDeclaration = true →
    ∃ before, g.block? id = some before ∧ before.kind = after.kind ∧ before.name = after.name

/-- A created reference whose event waits is a reference still. -/
def Truthful (g : Graph) : Prop :=
  ∀ id kind, Event.onBlock id kind .created ∈ g.pending.toList → kind.isReference = true → g.RefersAt id

structure Named (g : Graph) : Prop where
  sound : g.Sound
  apart : g.Apart
  neat : g.Neat
  truthful : g.Truthful

theorem Apart.of_names (apart : g.Apart) (kept : NamesFrom g g') : g'.Apart := by
  intro a b one other here there declares named kinds names
  obtain ⟨one', here', kind, name⟩ := kept here declares
  obtain ⟨other', there', kind', name'⟩ := kept there (kinds ▸ declares)
  refine apart a b one' other' here' there' (kind ▸ declares) (name ▸ named) ?_ ?_
  · rw [kind', kind, kinds]
  · rw [name', name, names]

theorem Neat.of_names (neat : g.Neat) (kept : NamesFrom g g') : g'.Neat := by
  intro id after there declares
  obtain ⟨before, here, kind, name⟩ := kept there declares
  rw [← name]
  exact neat id before here (kind ▸ declares)

theorem Spells.namesFrom (spells : Spells g g') : NamesFrom g g' := by
  intro id after there declares
  obtain ⟨before, here, kind⟩ := spells.reports.kinds there
  refine ⟨before, here, kind.symm, (spells.names here there ?_).symm⟩
  rw [kind] at declares
  cases is : before.kind <;> first | rfl | (rw [is] at declares; cases declares)

theorem Truthful.reports (truthful : g.Truthful) (reports : Reports about g g') : g'.Truthful := by
  intro id kind member reference
  obtain ⟨told, appended, tells⟩ := reports.events
  rw [appended, List.mem_append] at member
  rcases member with old | new
  · exact (truthful id kind old reference).reports reports
  · obtain ⟨_, _, payload, -, -, ⟨other, -⟩, same⟩ := tells _ new
    obtain ⟨-, -, told⟩ := Event.mk.inj same
    exact absurd (congrArg Payload.kind told).symm other

theorem Named.of_names (named : g.Named) (kept : NamesFrom g g') (sound : g'.Sound) (truthful : g'.Truthful) :
    g'.Named :=
  ⟨sound, named.apart.of_names kept, named.neat.of_names kept, truthful⟩

theorem Named.spells (named : g.Named) (spells : Spells g g') (sound : g'.Sound) : g'.Named :=
  named.of_names spells.namesFrom sound (named.truthful.reports spells.reports)

theorem Named.queue (named : g.Named) {pending : EventQueue}
    (fewer : ∀ event ∈ pending.toList, event ∈ g.pending.toList) : Named { g with pending } :=
  named.of_names (fun {_ _} there _ => ⟨_, there, rfl, rfl⟩) (named.sound.queue pending)
    fun id kind member => named.truthful id kind (fewer _ member)

/-- The names that blocks of a kind have, in ascending order of the blocks. -/
def namesOf (g : Graph) (kind : Kind) : List String :=
  (g.blocks.filter fun block => block.kind = kind && block.name ≠ "").map Block.name

theorem Tree.block?_of_mem (tree : g.Tree) (listed : block ∈ g.blocks) : g.block? block.id = some block := by
  obtain ⟨node, held, rfl⟩ := List.mem_map.mp listed
  exact Option.map_eq_some_iff.mpr ⟨node, node?_of_mem tree.distinct held, rfl⟩

theorem mem_namesOf {kind : Kind} {name : String} (tree : g.Tree) (member : name ∈ g.namesOf kind) :
    ∃ id block, g.block? id = some block ∧ block.kind = kind ∧ block.name = name := by
  obtain ⟨block, listed, named⟩ := List.mem_map.mp member
  obtain ⟨held, shown⟩ := List.mem_filter.mp listed
  simp only [Bool.and_eq_true, decide_eq_true_eq] at shown
  exact ⟨block.id, block, tree.block?_of_mem held, shown.1, named⟩

theorem Neat.trim_of_mem {kind : Kind} {name : String} (neat : g.Neat) (tree : g.Tree)
    (declares : kind.isDeclaration = true) (member : name ∈ g.namesOf kind) : Text.trim name = name := by
  obtain ⟨id, block, found, rfl, rfl⟩ := mem_namesOf tree member
  exact neat id block found declares

theorem Apart.nodup_namesOf {kind : Kind} (apart : g.Apart) (tree : g.Tree) (declares : kind.isDeclaration = true) :
    (g.namesOf kind).Nodup := by
  have distinct : (g.blocks.filter fun block => block.kind = kind && block.name ≠ "").Nodup :=
    List.Nodup.of_map _ ((tree.filter_blocks_ascending _).imp fun below same => by simp [same] at below)
  refine distinct.map_on fun one left other right same => ?_
  simp only [List.mem_filter, Bool.and_eq_true, decide_eq_true_eq] at left right
  obtain ⟨held, here, filled⟩ := left
  obtain ⟨held', there, -⟩ := right
  have found := tree.block?_of_mem held
  have found' := tree.block?_of_mem held'
  have ids := apart one.id other.id one other found found' (here ▸ declares) filled (there.trans here.symm) same.symm
  rw [ids, found'] at found
  exact (Option.some.inj found).symm

/-- A fresh block has no name yet. -/
theorem name_create (id : BlockId) (kind : Kind) (extra : ExtraState) (declares : kind.isDeclaration = true) :
    (Block.create id kind extra).name = "" := by
  have fields : Block.defaultFields kind = [(Field.name, "")] := by
    cases kind <;> first | rfl | cases declares
  rw [Block.name, Block.fieldD, Block.field?, Block.fields_create, fields]
  rfl

theorem Named.addBlock (named : g.Named) (idle : g.pending.toList = []) (kind : Kind) (extra : ExtraState) :
    (g.addBlock kind extra).2.Named := by
  have blocks := g.block?_addBlock kind extra
  refine ⟨named.sound.addBlock kind extra, ?_, ?_, ?_⟩
  · intro a b one other here there declares some kinds names
    -- Neither of the two is the fresh block.
    have old : ∀ {id block}, (g.addBlock kind extra).2.block? id = .some block →
        block.kind.isDeclaration = true → block.name ≠ "" → g.block? id = .some block := by
      intro id block found declares some
      rw [blocks] at found
      split at found
      · cases found
        rw [Block.kind_create] at declares
        exact absurd (name_create _ kind extra declares) some
      · exact found
    exact named.apart a b one other (old here declares some) (old there (kinds ▸ declares) (names ▸ some)) declares some
      kinds names
  · intro id block found declares
    rw [blocks] at found
    split at found
    · cases found
      rw [Block.kind_create] at declares
      rw [name_create _ kind extra declares]
      rfl
    · exact named.neat id block found declares
  · intro id told member reference block found
    simp only [Graph.addBlock, Graph.place, Graph.emit, Graph.push, EventQueue.toList_push, idle,
      List.nil_append, List.mem_singleton, Event.onBlock, Event.mk.injEq, Option.some.injEq,
      Block.id_create, Block.kind_create, and_true] at member
    obtain ⟨rfl, rfl⟩ := member
    rw [blocks, if_pos rfl] at found
    cases found
    rwa [Block.kind_create]

/-- An accepted name is not empty, and no other block of the kind has it. -/
theorem free_of_validateName {proposed value : String} (found : g.block? id = some block)
    (valid : g.validateName id proposed = .ok value) :
    value ≠ "" ∧ ∀ {asked other}, g.block? asked = some other → asked ≠ id → other.kind = block.kind →
      other.name ≠ value := by
  unfold validateName at valid
  simp only [found] at valid
  split at valid
  · cases valid
  · next filled =>
    split at valid
    · cases valid
    · next free =>
      obtain rfl := Except.ok.inj valid
      have filled : Text.trim proposed ≠ "" := by simpa using filled
      refine ⟨filled, fun {asked other} there differs kind same => free ?_⟩
      have shown : other.field? Field.name = some (Text.trim proposed) := by
        unfold Block.name Block.fieldD at same
        cases is : other.field? Field.name with
        | none =>
          rw [is] at same
          exact absurd same.symm filled
        | some shown => rw [← same, is, Option.getD_some]
      exact List.any_eq_true.mpr ⟨other, mem_blocks there, by simp [block?_id there, differs, kind, shown]⟩

/-- What is accepted is the trimmed text. -/
theorem eq_trim_of_validateName {proposed value : String} (valid : g.validateName id proposed = .ok value) :
    value = Text.trim proposed := by
  simp only [validateName] at valid
  split at valid
  · cases valid
  · split at valid
    · exact (Except.ok.inj valid).symm
    · split at valid
      · cases valid
      · exact (Except.ok.inj valid).symm

theorem trim_of_validateName {proposed value : String} (valid : g.validateName id proposed = .ok value) :
    Text.trim value = value := by
  rw [eq_trim_of_validateName valid, Text.trim_trim]

/-- A block got a name that no other one of its kind has. -/
theorem Apart.renamed {value : String} {old : Option String} (apart : g.Apart)
    (found : g.block? id = some block) (h : g.setField id Field.name value = .ok (old, g'))
    (free : ∀ {asked other}, g.block? asked = some other → asked ≠ id → other.kind = block.kind →
      other.name ≠ value) : g'.Apart := by
  have blocks := block?_setField h
  have own : ∀ {after}, g'.block? id = some after → after.kind = block.kind ∧ after.name = value := by
    intro after there
    rw [blocks, if_pos rfl, found] at there
    cases there
    exact ⟨rfl, by simp [Block.name, Block.fieldD, Block.field?]⟩
  intro a b one other here there declares filled kinds names
  by_cases left : a = id <;> by_cases right : b = id
  · rw [left, right]
  · subst left
    rw [blocks, if_neg right] at there
    obtain ⟨kind, called⟩ := own here
    exact absurd (names.trans called) (free there right (kinds.trans kind))
  · subst right
    rw [blocks, if_neg left] at here
    obtain ⟨kind, called⟩ := own there
    exact absurd (names.symm.trans called) (free here left (kinds.symm.trans kind))
  · rw [blocks, if_neg left] at here
    rw [blocks, if_neg right] at there
    exact apart a b one other here there declares filled kinds names

theorem Neat.renamed {value : String} {old : Option String} (neat : g.Neat)
    (h : g.setField id Field.name value = .ok (old, g')) (trimmed : Text.trim value = value) : g'.Neat := by
  intro asked after there declares
  rw [block?_setField h] at there
  split at there
  · obtain ⟨before, -, rfl⟩ := Option.map_eq_some_iff.mp there
    simpa [Block.name, Block.fieldD, Block.field?] using trimmed
  · exact neat asked after there declares

/-- A block that declares nothing may get any name. -/
theorem namesFrom_setField {name value : String} {old : Option String} (found : g.block? id = some block)
    (h : g.setField id name value = .ok (old, g')) (other : block.kind.isDeclaration = true → name ≠ Field.name) :
    NamesFrom g g' := by
  intro asked after there declares
  rw [block?_setField h] at there
  split at there
  · next here =>
    subst here
    rw [found] at there
    cases there
    exact ⟨block, found, rfl, (Block.Alike.put block value (other declares)).name.symm⟩
  · exact ⟨after, there, rfl, rfl⟩

theorem Named.setField {name value : String} {old : Option String} (named : g.Named)
    (found : g.block? id = some block) (h : g.setField id name value = .ok (old, g'))
    (checked : block.kind.isDeclaration = true → name = Field.name →
      ∃ proposed, g.validateName id proposed = .ok value) : g'.Named := by
  have reports : Reports (fun _ => True) g g' := .setField h trivial
  have sound := named.sound.setField h
  have truthful := named.truthful.reports reports
  by_cases renames : block.kind.isDeclaration = true ∧ name = Field.name
  · obtain ⟨declares, rfl⟩ := renames
    obtain ⟨proposed, valid⟩ := checked declares rfl
    have apart := named.apart.renamed found h (free_of_validateName found valid).2
    exact ⟨sound, apart, named.neat.renamed h (trim_of_validateName valid), truthful⟩
  · exact named.of_names (namesFrom_setField found h fun declares same => renames ⟨declares, same⟩) sound truthful

theorem Named.setSignature {changes : List ParamChange} (named : g.Named)
    (h : g.setSignature id changes = .ok g') : g'.Named := by
  have blocks := block?_setSignature h
  have reports : Reports (fun _ => True) g g' := .setSignature h trivial
  refine named.of_names (fun {asked after} there _ => ?_) (named.sound.setSignature h)
    (named.truthful.reports reports)
  rw [blocks] at there
  split at there
  · obtain ⟨before, here, rfl⟩ := Option.map_eq_some_iff.mp there
    refine ⟨before, here, ?_, ?_⟩
    · rw [Block.kind_showParams]
    · rw [Block.name_showParams]
      rfl
  · exact ⟨after, there, rfl, rfl⟩

/-- A graph that was stored and loaded shows the same names; what it tells of was created. -/
theorem Named.reloaded (named : g.Named) (loaded : ofForest g.toForest = .ok g') : g'.Named := by
  obtain ⟨mirrors, sound⟩ := Sound.mirrors_ofForest named.sound loaded
  refine named.of_names (fun {id after} there _ => ?_) sound fun id kind member reference => ?_
  · obtain ⟨before, here, alike⟩ := mirrors.stored_block there
    have kind : after.kind = before.kind := (congrArg Block.kind alike :)
    have fields : after.fields = before.fields := (congrArg Block.fields alike :)
    exact ⟨before, here, kind.symm, by simp only [Block.name, Block.fieldD, Block.field?, fields]⟩
  · have told := (ofForest_grows loaded).1.events
    rw [Graph.empty, EventQueue.toList_empty, List.nil_append] at told
    rw [told] at member
    obtain ⟨spot, listed, same⟩ := List.mem_map.mp member
    simp only [Spot.creation, Event.onBlock, Event.mk.injEq, Option.some.injEq, and_true] at same
    obtain ⟨rfl, rfl⟩ := same
    intro block found
    change g'.block? spot.node.id = some block at found
    rw [spot.id_node, block?, node?_spot loaded listed] at found
    cases found
    exact reference

end Graph

/-! Sessions. -/

namespace Session

variable {s s' : Session}

/-- In both phases the answer to an event gives new names to references alone. -/
theorem handle_spells (standard : s.registry = .standard) (sound : s.graph.Sound) {event : Event}
    (honest : ∀ id kind, event = .onBlock id kind .created → kind.isReference = true → s.graph.RefersAt id)
    (own : Option Declarations) : s.graph.Spells (s.handle own event).1.graph :=
  handle_answers Graph.Spells.allows Graph.Spells.answers standard (fun _ _ => sound.tree.refersAt_caller) honest own

/-- Handling events keeps the names of declarations apart, however many events are handled. -/
theorem handleWithin_named (standard : s.registry = .standard) (named : s.graph.Named)
    (own : Option Declarations) (budget : Nat) : (s.handleWithin own budget).1.graph.Named := by
  refine (handleWithin_keeps (P := fun t => t.registry = .standard ∧ t.graph.Named) ⟨standard, named⟩
    (fun ⟨standard, named⟩ => ⟨standard, named.queue (List.forall_mem_nil _)⟩)
    (fun {t event pending} ⟨standard, named⟩ view own => ⟨(handle_registry ..).trans standard, ?_⟩) own budget).2
  have rest : Graph.Named { t.graph with pending } := named.queue fun other member => by simp [view, member]
  have honest : ∀ id kind, event = .onBlock id kind .created → kind.isReference = true →
      Graph.RefersAt { t.graph with pending } id :=
    fun id kind is => named.truthful id kind (by rw [view, is]; exact List.mem_cons_self ..)
  have answer := handle_spells (s := { t with graph := { t.graph with pending } }) standard rest.sound honest own
  exact rest.spells answer
    ((handle_evolves { t with graph := { t.graph with pending } } standard own event).sound rest.sound)

/-- Between operations the names of declarations are apart and no event waits. -/
structure Tidy (s : Session) : Prop where
  standard : s.registry = .standard
  named : s.graph.Named
  idle : s.graph.pending.toList = []

theorem tidy_settled (standard : s.registry = .standard) (named : s.graph.Named) : s.settled.Tidy :=
  ⟨(settled_registry s).trans standard, handleWithin_named standard named none eventLimit, pending_settled s⟩

theorem Tidy.new (scope : Scope) : Tidy { scope } := by
  have missing : ∀ {id block}, Graph.empty.block? id = some block → False := by
    intro id block found
    simp [Graph.empty, Graph.block?, Graph.node?] at found
  refine ⟨rfl, ⟨.empty, ?_, ?_, ?_⟩, rfl⟩
  · exact fun _ _ _ _ found => (missing found).elim
  · exact fun _ _ found => (missing found).elim
  · exact fun _ _ member => absurd member List.not_mem_nil

theorem Tidy.run {edit : SessionEdit} (tidy : s.Tidy) (ran : edit.run s = .ok s') : s'.Tidy := by
  obtain ⟨standard, named, idle⟩ := tidy
  have settles : ∀ {g : Graph}, g.Named → (s.withGraph g).Tidy := fun named => tidy_settled standard named
  have spells : ∀ {g : Graph}, s.graph.Spells g → g.Sound → (s.withGraph g).Tidy := fun spells sound =>
    settles (named.spells spells sound)
  cases SessionEdit.performs ran with
  | create kind extra => exact settles (named.addBlock idle kind extra)
  | createCallTo asked set =>
    refine settles ((named.addBlock idle .methodCall _).setField (Graph.block?_created ..) set fun declares => ?_)
    rw [Block.kind_create] at declares
    cases declares
  | same => exact ⟨standard, named, idle⟩
  | @setField _ name value stored block old g found accepted differs set =>
    refine settles (named.setField found set fun declares renames => ⟨value, ?_⟩)
    rw [fieldValue, if_pos (by simp [declares, renames]), Graph.block?_id found] at accepted
    exact accepted
  | connectNext linked => exact spells (.connectNext linked) (named.sound.connectNext linked)
  | connectSocket linked =>
    exact spells (Graph.Spells.allows.connectSocket linked) (named.sound.connectSocket linked)
  | unplug freed => exact spells (Graph.Spells.allows.unplug freed) (named.sound.unplug freed)
  | delete deleted => exact spells (Graph.Spells.allows.deleteBlock deleted) (named.sound.deleteBlock deleted)
  | applyEditor set => exact settles (named.setSignature set)
  | setScope scope =>
    have turned : s.graph.Spells (s.graph.reconcileAll scope).2 :=
      Graph.Spells.answers.reconcileEach (fun _ member => named.sound.refersAt_reference member) _
    exact tidy_settled (s := { s with scope, graph := (s.graph.reconcileAll scope).2 }) standard
      (named.spells turned ((Graph.Evolves.reconcileEach ..).sound named.sound))

theorem Tidy.edit (tidy : s.Tidy) (edit : SessionEdit) : (s.edit edit).Tidy := by
  rw [Session.edit_eq]
  cases ran : edit.run s with
  | error error => exact tidy
  | ok edited => exact tidy.run ran

theorem Tidy.reload {scope : Scope} (tidy : s.Tidy)
    (loaded : Session.load s.toForest scope .standard = .ok s') : s'.Tidy := by
  obtain ⟨g, stored, rfl⟩ := load_eq_ok.mp loaded
  have named := tidy.named.reloaded stored
  refine tidy_settled rfl ⟨named.sound.push _, named.apart, named.neat, fun id kind member => ?_⟩
  rw [Graph.push, EventQueue.toList_push, List.mem_append, List.mem_singleton] at member
  exact named.truthful id kind (member.resolve_right fun same => by cases same)

/-- The sessions that operations lead to, and storing and loading between them. -/
inductive Kept : Session → Prop where
  | new (scope : Scope) : Kept { scope }
  | edited {s : Session} (kept : Kept s) (edit : SessionEdit) : Kept (s.edit edit)
  | reloaded {s s' : Session} (kept : Kept s) {scope : Scope}
      (loaded : Session.load s.toForest scope .standard = .ok s') : Kept s'

theorem Kept.tidy (kept : s.Kept) : s.Tidy := by
  induction kept with
  | new scope => exact .new scope
  | edited _ edit ih => exact ih.edit edit
  | reloaded _ loaded ih => exact ih.reload loaded

theorem Kept.foldl_edit (kept : s.Kept) (edits : List SessionEdit) : (edits.foldl Session.edit s).Kept := by
  induction edits generalizing s with
  | nil => exact kept
  | cons edit edits ih => exact ih (kept.edited edit)

/-- In whatever way a session is edited, stored and loaded, the names of its events are trimmed and distinct,
and so are those of its definitions. -/
theorem Kept.names_trim_nodup (kept : s.Kept) :
    ∀ kind ∈ [Kind.event, Kind.methodDef], (s.graph.namesOf kind).Nodup ∧
      ∀ name ∈ s.graph.namesOf kind, Text.trim name = name := by
  obtain ⟨-, named, -⟩ := kept.tidy
  intro kind listed
  have declares : kind.isDeclaration = true := by
    rcases List.mem_pair.mp listed with rfl | rfl <;> rfl
  have tree := named.sound.tree
  exact ⟨named.apart.nodup_namesOf tree declares, fun name member => named.neat.trim_of_mem tree declares member⟩

/-- A name in use is refused, blanks are cut off, and a call that is renamed is not in the way of either; all
of it holds after the session was stored and loaded, too. -/
theorem names_trim_nodup_reloaded :
    let edits : List SessionEdit :=
      [.create .event (.default .event), .setField ⟨0⟩ Field.name " go ",
        .create .event (.default .event), .setField ⟨1⟩ Field.name "go",
        .create .methodDef (.default .methodDef), .setField ⟨2⟩ Field.name "go\n", .createCallTo ⟨2⟩]
    ∃ s, Session.load (edits.foldl Session.edit {}).toForest {} .standard = .ok s ∧ s.Kept ∧
      s.graph.blocks.map Block.name = ["go", "", "go", "go"] ∧ (s.graph.namesOf .event).Nodup ∧
      ∀ name ∈ s.graph.namesOf .methodDef, Text.trim name = name := by
  intro edits
  have kept : (edits.foldl Session.edit {}).Kept := (Kept.new {}).foldl_edit edits
  have shown : (Session.load (edits.foldl Session.edit {}).toForest {} .standard).toOption.map
      (fun s => s.graph.blocks.map Block.name) = some ["go", "", "go", "go"] := by
    decide +kernel
  obtain ⟨s, loaded, names⟩ := Option.map_eq_some_iff.mp shown
  have loaded := toOption_eq_some.mp loaded
  have reloaded := kept.reloaded loaded
  exact ⟨s, loaded, reloaded, names, (reloaded.names_trim_nodup .event (by simp)).1,
    (reloaded.names_trim_nodup .methodDef (by simp)).2⟩

/-- In whatever way a session is edited, stored and loaded, no two definitions have the same name, once they
have one. The methods of its class have different names, though, only if the definitions have different
identifiers, too, and none that the generator gives to another method. -/
theorem Kept.def_names_nodup_iff (kept : s.Kept) {type : ModuleType} (supported : type ≠ .unknown)
    {options : Code.Options} (valid : options.isValid = true) (name : String) (scope : Scope) :
    ∃ generated imports outline c, Code.generate type name s.graph scope options = .ok generated ∧
      generated.code = Code.fileText options imports c ∧
      Code.Outline.collect? type name s.graph = some outline ∧
      (∀ a b one other, s.graph.block? a = some one → s.graph.block? b = some other →
        one.kind = .methodDef → other.kind = .methodDef → one.name ≠ "" → other.name = one.name → a = b) ∧
      ((c.methods.map (·.name)).Nodup ↔ Code.NamesApart s.graph outline) := by
  obtain ⟨-, named, -⟩ := kept.tidy
  obtain ⟨generated, made⟩ : ∃ generated, Code.generate type name s.graph scope options = .ok generated :=
    (Code.generate_ok_iff named.sound scope).mpr ⟨valid, supported⟩
  obtain ⟨outline, collected, is⟩ := Code.generate_eq named.sound made
  refine ⟨generated, _, outline, _, made, congrArg Code.Generated.code is, collected, ?_,
    Code.written_names_nodup_iff named.sound collected⟩
  intro a b one other here there left right filled names
  exact named.apart a b one other here there (by rw [left]; rfl) filled (right.trans left.symm) names

/-- Both names are accepted, and both methods are named `go_fast`. -/
theorem def_names_nodup_iff_blank :
    let edits : List SessionEdit :=
      [.create .methodDef (.default .methodDef), .setField ⟨0⟩ Field.name "go fast",
        .create .methodDef (.default .methodDef), .setField ⟨1⟩ Field.name "go_fast"]
    let s := edits.foldl Session.edit {}
    s.graph.blocks.map Block.name = ["go fast", "go_fast"] ∧
      ∃ generated imports c, Code.generate .opMode "M" s.graph {} {} = .ok generated ∧
        generated.code = Code.fileText {} imports c ∧ ¬ (c.methods.map (·.name)).Nodup := by
  intro edits s
  have kept : s.Kept := (Kept.new {}).foldl_edit edits
  have supported : ModuleType.opMode ≠ .unknown := by decide
  have valid : ({} : Code.Options).isValid = true := by decide
  obtain ⟨generated, imports, outline, c, made, text, collected, -, apart⟩ :=
    kept.def_names_nodup_iff supported valid "M" {}
  refine ⟨by decide +kernel, generated, imports, c, made, text, fun distinct => ?_⟩
  have listed : (Code.Outline.collect? .opMode "M" s.graph).map (·.methods) = some [⟨0⟩, ⟨1⟩] := by
    decide +kernel
  rw [collected, Option.map_some, Option.some.injEq] at listed
  have same := (apart.mp distinct).definitions ⟨0⟩ (by simp [listed]) ⟨1⟩ (by simp [listed]) (by decide +kernel)
  exact absurd same (by decide)

end Session
end RobotBlocks
