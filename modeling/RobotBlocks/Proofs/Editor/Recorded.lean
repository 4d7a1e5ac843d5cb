import RobotBlocks.Proofs.Editor.Unmodified
import RobotBlocks.Proofs.Graph.Mirrored

/-! Stores that editors write and whose modules and workspaces are moved, copied and deleted. Beside its
blocks a document keeps what they declare, written when it is saved; the generator and the other modules
read the one or the other. Both are written from one graph and nothing rewrites the one without the
other, so they agree in every store that can come about.

A module that is open stays open while its workspace is deleted or moved, and another module may be
created under its path. So a document may come to stand under a path with another type, and what it keeps
goes by the type it names itself. -/
namespace RobotBlocks

open LawfulStore

/-- What one does with an editor and with the workspaces of its store. -/
inductive Command where
  | step (step : EditorStep)
  | moveModule (path newName : String) (copy : Bool)
  | deleteModule (path : String)
  | moveWorkspace (oldName newName : String) (copy : Bool)
  | deleteWorkspace (name : String)
  /-- The open module is left, and an editor with other options takes over the store. -/
  | restart (options : Code.Options)

/-- The first block of a kind that a walk over a graph comes to. -/
def Graph.First (g : Graph) (kind : Kind) (block : Block) : Prop :=
  ∃ earlier id later, g.walkAll = earlier ++ id :: later ∧ g.block? id = some block ∧ block.kind = kind ∧
    ∀ before ∈ earlier, ∀ other, g.block? before = some other → other.kind ≠ kind

/-- The details of an opmode as they stand in the fields of a block. -/
structure OpModeDetails.Reads (details : OpModeDetails) (block : Block) : Prop where
  auto : details.kind = .auto ↔ block.field? Field.type = some "Auto"
  test : details.kind = .test ↔ block.field? Field.type = some "Test"
  name : details.name = (block.field? Field.name).getD ""
  group : details.group = (block.field? Field.group).getD ""
  enabled : details.enabled = true ↔ block.field? Field.enabled = some "TRUE"

namespace OpModeDetails

theorem Reads.unique {details other : OpModeDetails} {block : Block} (reads : details.Reads block)
    (again : other.Reads block) : details = other := by
  obtain ⟨kind, name, group, enabled⟩ := details
  obtain ⟨kind', name', group', enabled'⟩ := other
  obtain rfl : name = name' := reads.name.trans again.name.symm
  obtain rfl : group = group' := reads.group.trans again.group.symm
  obtain rfl : enabled = enabled' := Bool.eq_iff_iff.mpr (reads.enabled.trans again.enabled.symm)
  have auto : kind = .auto ↔ kind' = .auto := reads.auto.trans again.auto.symm
  have test : kind = .test ↔ kind' = .test := reads.test.trans again.test.symm
  obtain rfl : kind = kind' := by
    cases kind <;> cases kind' <;> simp at auto test <;> rfl
  rfl

theorem ofField_eq_iff (field : Option String) :
    (OpModeKind.ofField (field.getD "") = .auto ↔ field = some "Auto") ∧
      (OpModeKind.ofField (field.getD "") = .test ↔ field = some "Test") := by
  cases field with
  | none => simp [OpModeKind.ofField]
  | some name =>
    simp only [Option.getD_some, Option.some.injEq]
    unfold OpModeKind.ofField
    split <;> simp_all

theorem ofBlock?_eq_some {block : Block} {details : OpModeDetails} :
    ofBlock? block = some details ↔ block.kind = .opModeDetails ∧ details.Reads block := by
  have reads : Reads { kind := .ofField (block.fieldD Field.type), name := block.fieldD Field.name
                       group := block.fieldD Field.group
                       enabled := block.field? Field.enabled = some "TRUE" } block :=
    ⟨(ofField_eq_iff _).1, (ofField_eq_iff _).2, rfl, rfl, decide_eq_true_iff⟩
  unfold ofBlock?
  split
  · next same =>
    rw [Option.some.injEq]
    exact ⟨fun own => ⟨same, own ▸ reads⟩, fun own => reads.unique own.2⟩
  · next other => exact ⟨nofun, fun own => absurd own.1 other⟩

theorem ofBlock?_eq_none {block : Block} : ofBlock? block = none ↔ block.kind ≠ .opModeDetails := by
  unfold ofBlock?
  split <;> simp_all

/-- The details of a graph are those of the first block that has any. -/
theorem ofGraph?_eq_some {g : Graph} {details : OpModeDetails} :
    ofGraph? g = some details ↔ ∃ block, g.First .opModeDetails block ∧ details.Reads block := by
  rw [ofGraph?, List.findSome?_eq_some_iff]
  simp only [Option.bind_eq_some_iff, Option.bind_eq_none_iff, ofBlock?_eq_some, ofBlock?_eq_none]
  constructor
  · rintro ⟨earlier, id, later, walk, ⟨block, here, same, reads⟩, none⟩
    exact ⟨block, ⟨earlier, id, later, walk, here, same, none⟩, reads⟩
  · rintro ⟨block, ⟨earlier, id, later, walk, here, same, none⟩, reads⟩
    exact ⟨earlier, id, later, walk, ⟨block, here, same, reads⟩, none⟩

end OpModeDetails

/-- A document whose lists and details are those of a graph. The type that counts is the one in the
document. -/
structure ModuleContent.Shows (content : ModuleContent) (g : Graph) : Prop where
  exports : content.type = .robot ∨ content.type = .mechanism →
    content.declarations = (Declarations.collect g).exported
  silent : content.type = .opMode → content.declarations = {}
  outside : ∀ method ∈ content.declarations.methods, method.visibility ≠ .within
  details : content.type = .opMode → ∀ details, content.opMode = some details ↔
    ∃ block, g.First .opModeDetails block ∧ details.Reads block
  bare : content.type ≠ .opMode → content.opMode = none

theorem Session.document_shows (s : Session) (type : ModuleType) : (s.document type).Shows s.graph where
  exports exported := if_pos (by rcases exported with same | same <;> cases same <;> rfl)
  silent hidden := by cases hidden; rfl
  outside method member := by
    unfold Session.document at member
    dsimp only at member
    split at member
    · have outside := (List.mem_filter.mp member).2
      intro within
      simp [within] at outside
    · cases member
  details same details := by
    cases same
    exact OpModeDetails.ofGraph?_eq_some
  bare other := if_neg other

theorem ModuleContent.Shows.mirrors {content : ModuleContent} {g h : Graph} (shows : content.Shows g)
    (mirrors : g.Mirrors h) (tree : g.Tree) (tree' : h.Tree) : content.Shows h where
  exports exported := by rw [mirrors.collect tree tree', shows.exports exported]
  silent := shows.silent
  outside := shows.outside
  details same details := by
    rw [shows.details same, ← OpModeDetails.ofGraph?_eq_some, ← OpModeDetails.ofGraph?_eq_some,
      mirrors.opMode tree tree']
  bare := shows.bare

/-- A text that storing a session makes. -/
def Recorded (text : String) : Prop := ∃ type, Composed type text

theorem Session.Whole.recorded {s : Session} {type : ModuleType} {name text : String} {options : Code.Options}
    (whole : s.Whole) (made : s.contentText type name options = .ok text) : Recorded text :=
  ⟨type, s, name, options, whole, ((Session.contentText_ok_iff whole.graph.sound).mp ⟨text, made⟩).2, made⟩

namespace Recorded

variable {text : String} {content : ModuleContent}

theorem distinct (recorded : Recorded text) (parsed : ModuleContent.parse text = .ok content) :
    content.blocks.Distinct := by
  obtain ⟨type, composed⟩ := recorded
  exact (composed.written.parsed parsed).2.2

/-- What is read back shows the graph that it is rebuilt to. -/
theorem shows {g : Graph} (recorded : Recorded text) (parsed : ModuleContent.parse text = .ok content)
    (loaded : Graph.ofForest content.blocks = .ok g) : content.Shows g := by
  obtain ⟨type, composed⟩ := recorded
  obtain ⟨s, whole, rfl⟩ := composed.parsed parsed
  have sound := whole.graph.sound
  obtain ⟨mirrors, sound'⟩ := sound.mirrors_ofForest loaded
  exact (s.document_shows type).mirrors mirrors sound.tree sound'.tree

end Recorded

variable {σ : Type} [ModuleStore σ]

namespace Editor

def perform (editor : Editor σ) : Command → Editor σ
  | .step step => editor.step step
  | .moveModule path newName copy => editor.after (editor.moveModule path newName copy)
  | .deleteModule path => (editor.deleteModule path).toOption.getD editor
  | .moveWorkspace oldName newName copy =>
    { editor with
      store := (ModuleStore.moveWorkspace editor.store oldName newName copy).toOption.getD editor.store }
  | .deleteWorkspace name =>
    { editor with store := (ModuleStore.deleteWorkspace editor.store name).toOption.getD editor.store }
  | .restart options => { store := editor.store, options }

end Editor

section Lawful

variable [LawfulStore σ] {store store' : σ} {path text : String} {module : Module}
  {robot : Option ModuleContent} {options : Code.Options}

/-- A store that answers and whose texts were all made by storing a session. -/
structure Records (store : σ) : Prop where
  intact : Intact store
  recorded : ∀ {path : String} {type : ModuleType} {text : String},
    held store path = some (type, text) → Recorded text

namespace Records

theorem draws (records : Records store) (intact : Intact store') (draws : Draws store store') :
    Records store' :=
  ⟨intact, fun here => let ⟨_, there⟩ := draws _ _ here; records.recorded there⟩

theorem overwrite {type : ModuleType} (records : Records store) (intact : Intact store') (recorded : Recorded text)
    (others : ∀ other, held store' other = if other = path then some (type, text) else held store other) :
    Records store' := by
  refine ⟨intact, fun {other _ _} here => ?_⟩
  rw [others] at here
  split at here
  · cases here
    exact recorded
  · exact records.recorded here

theorem save (records : Records store) (recorded : Recorded text)
    (saved : ModuleStore.save store path text = .ok store') : Records store' := by
  obtain ⟨intact, type, -, -, others⟩ := LawfulStore.save_ok records.intact saved
  exact records.overwrite intact recorded others

theorem fetched (records : Records store) (fetched : ModuleStore.fetch store path = .ok text) :
    Recorded text := by
  rw [LawfulStore.fetch_eq records.intact] at fetched
  cases here : held store path with
  | none => simp [here] at fetched
  | some own =>
    rw [here] at fetched
    cases fetched
    exact records.recorded here

end Records

namespace Editor

/-! Opening and following. -/

theorem openModule_whole {opened : OpenModule} (records : Records store)
    (found : openModule store path = .ok opened) : opened.session.Whole := by
  obtain ⟨parts, type, text, modified, -, here, found⟩ := openModule_read records.intact found
  obtain ⟨content, robot, session, parsed, -, loaded, rfl⟩ := openFound_eq_ok.mp found
  exact openSession_whole records.intact ((records.recorded here).distinct parsed) loaded

theorem refreshed_recorded {newText : String} (records : Records store) (recorded : Recorded text)
    (made : refreshed options store module text robot = .ok (some newText)) : Recorded newText := by
  unfold refreshed at made
  cases parsed : ModuleContent.parse text with
  | error error => simp [parsed] at made
  | ok content =>
    simp only [parsed, bind_eq_ok] at made
    obtain ⟨session, opened, made⟩ := made
    obtain ⟨_, own, same⟩ := map_eq_ok.mp made
    cases same
    exact (openSession_whole records.intact (recorded.distinct parsed) opened).recorded own

theorem syncModule_records {changed : Bool} (records : Records store)
    (synced : syncModule options store module robot = .ok (changed, store')) : Records store' := by
  rcases syncModule_cases synced with ⟨-, rfl⟩ | ⟨text, newText, -, fetched, made, -, wrote⟩
  · exact records
  · exact records.save (refreshed_recorded records (records.fetched fetched) made) wrote

/-- By induction on the modules; a failure keeps what was stored before it. -/
theorem syncEach_records (options : Code.Options) (robot : Option ModuleContent) (modules : List Module)
    (records : Records store) : Records (syncEach options robot store modules).2 := by
  induction modules generalizing store with
  | nil => exact records
  | cons module rest ih =>
    unfold syncEach
    cases synced : syncModule options store module robot with
    | error error => exact records
    | ok answer => exact ih (syncModule_records records synced)

theorem syncDependents_records (options : Code.Options) (saved : Module) (records : Records store) :
    Records (syncDependents options store saved).2 := by
  rcases syncDependents_cases options store saved with ⟨error, same⟩ | ⟨entries, robot, -, same⟩
  · rw [same]
    exact records
  · rw [same]
    exact syncEach_records options robot _ records

/-! Commands. -/

/-- An editor of a store whose texts were all made by storing a session. -/
structure Recorder (editor : Editor σ) : Prop where
  records : Records editor.store
  opened : ∀ {opened}, editor.current = some opened → opened.session.Whole

namespace Recorder

variable {editor editor' : Editor σ}

theorem after {α : Type} {answer : Except EditorError (α × Editor σ)} (recorder : editor.Recorder)
    (succeeds : ∀ a next, answer = .ok (a, next) → next.Recorder) : (editor.after answer).Recorder := by
  cases answer with
  | error error => exact recorder
  | ok outcome => exact succeeds _ _ rfl

theorem create {type : ModuleType} {path : ModulePath} {made : String} (recorder : editor.Recorder)
    (created : editor.create type path = .ok (made, editor')) : editor'.Recorder := by
  unfold Editor.create at created
  split at created
  · cases created
  · simp only [bind_eq_ok, pure_eq_ok, fromStore_eq_ok, Prod.mk.injEq] at created
    obtain ⟨session, started, text, content, store, stored, -, rfl⟩ := created
    obtain ⟨intact, -, others⟩ := LawfulStore.create_ok recorder.records.intact stored
    exact ⟨recorder.records.overwrite intact (Session.Whole.starter started |>.recorded content) others,
      recorder.opened⟩

theorem createModule {workspace name made : String} {type : ModuleType} (recorder : editor.Recorder)
    (created : editor.createModule workspace name type = .ok (made, editor')) : editor'.Recorder := by
  simp only [Editor.createModule] at created
  split at created
  · exact absurd created throw_ne_ok
  · obtain ⟨there, -, created⟩ := bind_eq_ok.mp created
    split at created
    · exact absurd created throw_ne_ok
    · exact recorder.create created

theorem load {opened : OpenModule} (recorder : editor.Recorder)
    (loaded : editor.load path = .ok (opened, editor')) : editor'.Recorder := by
  simp only [Editor.load, bind_eq_ok, pure_eq_ok, Prod.mk.injEq] at loaded
  obtain ⟨own, found, -, rfl⟩ := loaded
  refine ⟨recorder.records, fun current => ?_⟩
  cases current
  exact openModule_whole recorder.records found

theorem change {edit : Session → Session} (recorder : editor.Recorder)
    (keeps : ∀ session, session.Whole → (edit session).Whole) : (editor.change edit).Recorder := by
  unfold Editor.change
  cases current : editor.current with
  | none => exact recorder
  | some opened =>
    refine ⟨recorder.records, fun {edited} after => ?_⟩
    simp only [withSession, current, Option.map_some, Option.some.injEq] at after
    subst after
    exact keeps _ (recorder.opened current)

theorem save (recorder : editor.Recorder) : editor.save.2.Recorder := by
  rcases save_cases editor with ⟨error, same⟩ | ⟨opened, text, store, current, made, saved, same⟩
  · rw [same]
    exact recorder
  · have whole := recorder.opened current
    have records := recorder.records.save (whole.recorded made) saved
    rw [same]
    dsimp only
    split
    · refine ⟨syncDependents_records _ _ records, fun after => ?_⟩
      cases after
      exact whole
    · refine ⟨records, fun after => ?_⟩
      cases after
      exact whole

theorem step (recorder : editor.Recorder) (step : EditorStep) : (editor.step step).Recorder := by
  cases step with
  | createProject name => exact recorder.after fun _ _ created => recorder.create created
  | createModule workspace name type => exact recorder.after fun _ _ created => recorder.createModule created
  | load path => exact recorder.after fun _ _ loaded => recorder.load loaded
  | edit edit => exact recorder.change fun _ session => session.edit edit
  | mutate edit => exact recorder.change fun _ session => session.mutate edit
  | flush => exact recorder.change fun _ session => session.settled
  | save => exact recorder.save

end Recorder
end Editor
end Lawful

/-! Moving and deleting. -/

namespace Editor

variable [MovingStore σ] {editor editor' : Editor σ} {start : σ} {options : Code.Options}
  {path text : String} {type : ModuleType} {content : ModuleContent} {g : Graph}

omit [ModuleStore σ] [MovingStore σ] in
theorem closeIfOpen_opened {opened : OpenModule} (current : (editor.closeIfOpen path).current = some opened) :
    editor.current = some opened := by
  unfold closeIfOpen at current
  split at current
  · cases current
  · exact current

omit [ModuleStore σ] [MovingStore σ] in
theorem closeIfOpen_store (path : String) : (editor.closeIfOpen path).store = editor.store := by
  unfold closeIfOpen
  split <;> rfl

namespace Recorder

theorem closeIfOpen (recorder : editor.Recorder) (path : String) : (editor.closeIfOpen path).Recorder :=
  ⟨by rw [closeIfOpen_store]; exact recorder.records, fun current => recorder.opened (closeIfOpen_opened current)⟩

theorem withStore {store : σ} (recorder : editor.Recorder) (records : Records store) :
    Recorder { editor with store } :=
  ⟨records, recorder.opened⟩

theorem moveModule {newName made : String} {copy : Bool} (recorder : editor.Recorder)
    (moved : editor.moveModule path newName copy = .ok (made, editor')) : editor'.Recorder := by
  simp only [Editor.moveModule, bind_eq_ok] at moved
  obtain ⟨parts, -, moved⟩ := moved
  split at moved
  · exact absurd moved throw_ne_ok
  · simp only [bind_eq_ok, pure_eq_ok, fromStore_eq_ok, Prod.mk.injEq] at moved
    obtain ⟨store, carried, -, rfl⟩ := moved
    obtain ⟨intact, -, own, here, others⟩ := MovingStore.moveModule_ok recorder.records.intact carried
    have recorder := recorder.withStore (recorder.records.draws intact (.carry here others))
    split
    · exact recorder
    · exact recorder.closeIfOpen path

theorem deleteModule (recorder : editor.Recorder) (deleted : editor.deleteModule path = .ok editor') :
    editor'.Recorder := by
  simp only [Editor.deleteModule, bind_eq_ok, pure_eq_ok, fromStore_eq_ok] at deleted
  obtain ⟨parts, -, store, gone, rfl⟩ := deleted
  obtain ⟨intact, others⟩ := MovingStore.delete_ok recorder.records.intact gone
  exact (recorder.withStore (recorder.records.draws intact (.drop others))).closeIfOpen path

theorem perform (recorder : editor.Recorder) (command : Command) : (editor.perform command).Recorder := by
  cases command with
  | step step => exact recorder.step step
  | moveModule path newName copy => exact recorder.after fun _ _ moved => recorder.moveModule moved
  | deleteModule path =>
    change ((editor.deleteModule path).toOption.getD editor).Recorder
    cases deleted : editor.deleteModule path with
    | error error => exact recorder
    | ok next => exact recorder.deleteModule deleted
  | moveWorkspace oldName newName copy =>
    refine recorder.withStore ?_
    cases moved : ModuleStore.moveWorkspace editor.store oldName newName copy with
    | error error => exact recorder.records
    | ok store =>
      obtain ⟨intact, draws⟩ := MovingStore.moveWorkspace_ok recorder.records.intact moved
      exact recorder.records.draws intact draws
  | deleteWorkspace name =>
    refine recorder.withStore ?_
    cases deleted : ModuleStore.deleteWorkspace editor.store name with
    | error error => exact recorder.records
    | ok store =>
      obtain ⟨intact, others⟩ := MovingStore.deleteWorkspace_ok recorder.records.intact deleted
      exact recorder.records.draws intact (.drop others)
  | restart options => exact ⟨recorder.records, nofun⟩

theorem foldl_perform (recorder : editor.Recorder) (commands : List Command) :
    (commands.foldl Editor.perform editor).Recorder := by
  induction commands generalizing editor with
  | nil => exact recorder
  | cons command rest ih => exact ih (recorder.perform command)

end Recorder

/-- In every store that comes about, what a document keeps beside its blocks is what the graph that they
are rebuilt to declares: a document that names itself a robot or a mechanism has the exported declarations,
one that names itself an opmode has the details. The type of its entry does not count. -/
theorem perform_shows (intact : Intact start) (empty : ∀ path, held start path = none) (commands : List Command)
    (here : held (commands.foldl perform { store := start, options }).store path = some (type, text))
    (parsed : ModuleContent.parse text = .ok content) (loaded : Graph.ofForest content.blocks = .ok g) :
    content.Shows g := by
  have fresh : Recorder { store := start, options } :=
    ⟨⟨intact, fun here => nomatch (empty _).symm.trans here⟩, nofun⟩
  exact ((fresh.foldl_perform commands).records.recorded here).shows parsed loaded

/-- A method for everyone and one for the module itself. -/
def twoMethods : List SessionEdit :=
  [.create .methodDef (.method { visibility := .outside }), .setField ⟨1⟩ Field.name "go",
    .create .methodDef (.method {}), .setField ⟨2⟩ Field.name "turn"]

/-- The copy of a workspace that has just its robot. -/
theorem lone_copied (s : Session) : ModuleStore.moveWorkspace (lone s) "A" "B" true
    = .ok ((lone s).put "B/B.blk" ⟨.robot, (s.document .robot).text, 0⟩) := by
  have opens : (lone s).open? = .ok (lone s) := rfl
  have listed : (lone s).list = [⟨"A/A.blk", .robot, 0⟩] := rfl
  have planned : planWorkspaceMove [⟨"A/A.blk", .robot, 0⟩] "A" "B" = .ok [("A/A.blk", "B/B.blk")] := rfl
  simp only [ModuleStore.moveWorkspace, opens, listed, planned, bind, Except.bind]
  rfl

/-- The copy of a robot shows the one method that is for everyone. -/
theorem perform_shows_copied :
    let steps : List EditorStep := .createProject "A" :: .load "A/A.blk" :: twoMethods.map .edit ++ [.save]
    let editor := (steps.map Command.step ++ [Command.moveWorkspace "A" "B" true]).foldl perform
      ({ store := {} } : Editor Shelf)
    ∃ text content g, held editor.store "B/B.blk" = some (.robot, text) ∧
      ModuleContent.parse text = .ok content ∧ Graph.ofForest content.blocks = .ok g ∧ content.Shows g ∧
      (Declarations.collect g).methods.map (·.name) = ["go", "turn"] ∧
      content.declarations.methods.map (·.name) = ["go"] := by
  intro steps editor
  let s := twoMethods.foldl Session.edit (openedHolder {})
  have robot : Legible s .robot := ⟨openedHolder_whole {} _, by decide, by decide +kernel⟩
  let opened := { loneOpened newHolder s with savedText := (s.document .robot).text }
  have saved : steps.foldl Editor.step ({ store := {} } : Editor Shelf)
      = { store := lone s, current := some opened } := by
    change List.foldl Editor.step _ (_ :: _ :: List.map _ _ ++ [_]) = _
    rw [List.foldl_append, List.foldl_cons, List.foldl_nil, lone_edited]
    exact lone_save robot newHolder
  have stored : editor.store = (lone s).put "B/B.blk" ⟨.robot, (s.document .robot).text, 0⟩ := by
    simp only [editor, List.foldl_append, List.foldl_map]
    change (perform (steps.foldl Editor.step _) (.moveWorkspace "A" "B" true)).store = _
    rw [saved, perform, lone_copied]
    rfl
  have here : held editor.store "B/B.blk" = some (.robot, (s.document .robot).text) := by
    rw [stored]
    exact Shelf.held_put "B/B.blk"
  obtain ⟨g, loaded⟩ : ∃ g, Graph.ofForest (s.document .robot).blocks = .ok g := ⟨_, rfl⟩
  have intact : Intact ({} : Shelf) := ⟨rfl, .nil⟩
  refine ⟨_, _, g, here, robot.parse, loaded, perform_shows intact (fun _ => rfl) _ here robot.parse loaded, ?_, ?_⟩
  · cases loaded
    decide +kernel
  · decide +kernel

end Editor
end RobotBlocks
