import RobotBlocks.Proofs.Editor.Staffed
import RobotBlocks.Proofs.Session.Unseen

/-! Modules that are moved away or deleted. The modules beside them are opened afterwards as before. What they
refer to is looked up among the mechanisms that are there, and a mechanism that is gone counts as one whose
declarations are not at hand: references to it are neither warned nor reported, and checking shows nothing. -/
namespace RobotBlocks

open LawfulStore

namespace Editor

variable {σ : Type} [ModuleStore σ] [LawfulStore σ] {store store' : σ} {path source : String} {opened : OpenModule}

/-- What an opened module sees of a mechanism that nobody supplies. -/
theorem openModule_unseen (intact : Intact store) (opens : openModule store path = .ok opened) :
    opened.session.graph.Sound ∧ opened.session.Quiet ∧
      ∀ {field name}, (∀ content, ¬ Supplies store opened.module.workspace path name content) →
        opened.session.scope.Unseen (.mechanism field name) := by
  obtain ⟨parts, type, text, modified, -, -, found⟩ := openModule_read intact opens
  obtain ⟨content, robot, session, -, -, began, rfl⟩ := openFound_eq_ok.mp found
  obtain ⟨mechanisms, fetched⟩ := fetchMechanisms_ok intact parts.workspace path
  simp only [openSession, fetched, fromStore_ok] at began
  have loaded : Session.load content.blocks (scopeOf robot mechanisms) .standard = .ok session :=
    mapError_eq_ok.mp began
  obtain ⟨quiet, sees⟩ := Session.load_quiet loaded
  refine ⟨Session.load_sound loaded, quiet, fun {field name} absent => ?_⟩
  rw [Scope.unseen_mechanism_iff, sees]
  cases known : (scopeOf robot mechanisms).mechanisms.get? name with
  | none => rfl
  | some declarations =>
    obtain ⟨content, supplies, -⟩ := (get?_scopeOf intact fetched).mp known
    exact absurd supplies (absent content)

/-- A path of which nothing is held supplies nothing. -/
theorem Supplies.not_of_gone {parts : ModulePath} {content : ModuleContent}
    (named : ModulePath.ofText? source = some parts) (gone : held store source = none) :
    ¬ Supplies store parts.workspace path parts.module content := by
  rintro ⟨other, text, -, same, here, -⟩
  rw [← ModulePath.text_ofText? same, ModulePath.text_ofText? named, gone] at here
  cases here

/-- A module opens wherever it and its robot are held as they were. -/
theorem openModule_again (intact : Intact store) (intact' : Intact store')
    (own : held store' path = held store path)
    (beside : ∀ parts, ModulePath.ofText? path = some parts →
      held store' (ModulePath.robot parts.workspace).text = held store (ModulePath.robot parts.workspace).text)
    (opens : openModule store path = .ok opened) :
    ∃ again, openModule store' path = .ok again ∧ again.module.type = opened.module.type := by
  obtain ⟨parts, type, text, modified, named, here, found⟩ := openModule_read intact opens
  obtain ⟨content, robot, session, parsed, read, began, rfl⟩ := openFound_eq_ok.mp found
  obtain ⟨modified', same⟩ := openModule_found intact' named (own.trans here)
  obtain ⟨scope, loads⟩ := openSession_eq intact ⟨path, type, parts.module, parts.workspace, modified⟩ content robot
  obtain ⟨scope', loads'⟩ :=
    openSession_eq intact' ⟨path, type, parts.module, parts.workspace, modified'⟩ content robot
  obtain ⟨session', again⟩ := Session.load_ok_iff.mpr
    (Session.load_ok_iff.mp ⟨session, mapError_eq_ok.mp (loads ▸ began)⟩)
  refine ⟨{ module := ⟨path, type, parts.module, parts.workspace, modified'⟩, session := session'
            savedText := text, robot }, ?_, rfl⟩
  rw [same, beside parts named, openFound_eq_ok]
  exact ⟨content, robot, session', parsed, read, by rw [loads', mapError_eq_ok]; exact again, rfl⟩

end Editor

/-! Opening and generating. -/

namespace CommandLine

open Editor

variable {σ : Type} [ModuleStore σ] {editor : Editor σ} {path : String} {opened : OpenModule}
  {generated : Code.Generated}

theorem loadAndGenerate_eq_ok : loadAndGenerate editor path = .ok (opened, generated) ↔
    openModule editor.store path = .ok opened ∧
      opened.session.generate opened.module.type opened.module.name editor.options = .ok generated := by
  simp only [loadAndGenerate, Editor.load, bind_eq_ok, pure_eq_ok, Prod.mk.injEq]
  constructor
  · rintro ⟨_, ⟨own, found, rfl⟩, made, ran, rfl, rfl⟩
    exact ⟨found, ran⟩
  · rintro ⟨found, ran⟩
    exact ⟨_, ⟨opened, found, rfl⟩, generated, ran, rfl, rfl⟩

/-- Checking lists what is warned and what is reported, and nothing else. -/
theorem run_check {config : Config} {options : Code.Options} {store : σ} (same : config.options = options)
    (answered : loadAndGenerate { store, options } path = .ok (opened, generated)) :
    run config store (.check path) = (checkOutcome path opened.session.warnings generated.diagnostics, store) := by
  subst same
  unfold run
  dsimp only
  rw [answered]

/-- What is opened has code unless the options or the type of the module are at fault. -/
theorem loadAndGenerate_ok_iff [LawfulStore σ] {store : σ} {options : Code.Options} (intact : Intact store) :
    (∃ answer, loadAndGenerate { store, options } path = .ok answer) ↔
      ∃ opened, openModule store path = .ok opened ∧ options.isValid = true ∧ opened.module.type ≠ .unknown := by
  constructor
  · rintro ⟨⟨opened, generated⟩, answered⟩
    obtain ⟨found, ran⟩ := loadAndGenerate_eq_ok.mp answered
    obtain ⟨sound, -⟩ := openModule_unseen intact found
    exact ⟨opened, found, (Code.generate_ok_iff sound _).mp ⟨generated, mapError_eq_ok.mp ran⟩⟩
  · rintro ⟨opened, found, possible⟩
    obtain ⟨sound, -⟩ := openModule_unseen intact found
    obtain ⟨generated, ran⟩ : ∃ generated, Code.generate opened.module.type opened.module.name
        opened.session.graph opened.session.scope options = .ok generated :=
      (Code.generate_ok_iff sound _).mpr possible
    exact ⟨_, loadAndGenerate_eq_ok.mpr ⟨found, mapError_eq_ok.mpr ran⟩⟩

end CommandLine

/-! Leaving. -/

namespace Editor

variable {σ : Type} [ModuleStore σ] {editor after : Editor σ} {source other : String} {path : ModulePath}

/-- A module that is no robot is gone from its path, and all else that was held is held still. -/
structure Leaves [LawfulStore σ] (store store' : σ) (source : String) (path : ModulePath) : Prop where
  parts : ModulePath.ofText? source = some path
  crew : path.module ≠ path.workspace
  intact : Intact store'
  gone : held store' source = none
  others : ∀ other, other ≠ source → (held store other).isSome = true → held store' other = held store other

/-- Moving a module or deleting it. -/
inductive Removes (editor : Editor σ) (source : String) (after : Editor σ) : Prop where
  | move {newName made : String} (moved : editor.moveModule source newName false = .ok (made, after)) :
      Removes editor source after
  | delete (deleted : editor.deleteModule source = .ok after) : Removes editor source after

theorem Removes.leaves [MovingStore σ] (removes : editor.Removes source after) (intact : Intact editor.store) :
    ∃ path, Leaves editor.store after.store source path := by
  cases removes with
  | move moved =>
    obtain ⟨path, parts, crew, -, carried⟩ := moveModule_stored moved
    obtain ⟨intact', free, own, here, others⟩ := MovingStore.moveModule_ok intact carried
    refine ⟨path, parts, crew, intact', by rw [others, if_pos ⟨rfl, rfl⟩], fun other apart present => ?_⟩
    have aside : other ≠ ModulePath.text ⟨path.workspace, _⟩ := fun same => by
      rw [same, free] at present
      cases present
    rw [others, if_neg fun both => apart both.2, if_neg aside]
  | delete deleted =>
    obtain ⟨path, parts, crew, gone⟩ := deleteModule_stored deleted
    obtain ⟨intact', others⟩ := MovingStore.delete_ok intact gone
    exact ⟨path, parts, crew, intact', by rw [others, if_pos rfl], fun other apart _ => by rw [others, if_neg apart]⟩

/-- What could be opened beside a module can be opened when it is gone. -/
theorem Leaves.reopens [LawfulStore σ] {store store' : σ} {opened : OpenModule}
    (leaves : Leaves store store' source path) (staffed : Staffed store) (apart : other ≠ source)
    (opens : openModule store other = .ok opened) :
    ∃ again, openModule store' other = .ok again ∧ again.module.type = opened.module.type := by
  obtain ⟨parts, type, text, -, named, here, -⟩ := openModule_read staffed.intact opens
  have present : (held store other).isSome = true := by rw [here]; rfl
  refine openModule_again staffed.intact leaves.intact (leaves.others other apart present) ?_ opens
  intro place named'
  refine leaves.others _ (fun same => ?_) (staffed.led present named')
  cases (ModulePath.ofText?_robot named').symm.trans (same ▸ leaves.parts)
  exact leaves.crew rfl

/-- In every store that editors and commands write, a module may be moved away or deleted while others refer to
it. The others still open and have code, and no reference to the mechanism that is gone is warned, and none is
reported; what checking a module lists never names it. -/
theorem removed_unreported [RelocatingStore σ] {start : σ} (intact : Intact start)
    (empty : ∀ path, held start path = none) (options : Code.Options) (turns : List Turn) :
    let editor := turns.foldl turn { store := start, options }
    editor.Removes source after → ∃ path, ModulePath.ofText? source = some path ∧
      ∀ other, other ≠ source → ∀ options,
        ((∃ answer, CommandLine.loadAndGenerate { store := editor.store, options } other = .ok answer) →
          ∃ answer, CommandLine.loadAndGenerate { store := after.store, options } other = .ok answer) ∧
        ∀ opened generated,
          CommandLine.loadAndGenerate { store := after.store, options } other = .ok (opened, generated) →
          opened.module.workspace = path.workspace → ∀ id kind call field,
            Code.Refers opened.session.graph opened.session.scope id kind call →
            call.target = .mechanism field path.module →
              (∀ message, (id, message) ∉ opened.session.warnings) ∧
                ∀ diagnostic ∈ generated.diagnostics, diagnostic.block ≠ id := by
  intro editor removes
  have staffed : Staffed editor.store :=
    (foldl_turn_changes { store := start, options } turns).staffed (.empty intact empty)
  obtain ⟨path, leaves⟩ := removes.leaves staffed.intact
  refine ⟨path, leaves.parts, fun other apart options => ⟨fun answers => ?_, ?_⟩⟩
  · obtain ⟨opened, opens, valid, known⟩ := (CommandLine.loadAndGenerate_ok_iff staffed.intact).mp answers
    obtain ⟨again, reopens, same⟩ := leaves.reopens staffed apart opens
    exact (CommandLine.loadAndGenerate_ok_iff leaves.intact).mpr ⟨again, reopens, valid, same ▸ known⟩
  · intro opened generated answered inside id kind call field refers aimed
    obtain ⟨opens, ran⟩ := CommandLine.loadAndGenerate_eq_ok.mp answered
    obtain ⟨sound, quiet, sees⟩ := openModule_unseen leaves.intact opens
    have unseen : opened.session.scope.Unseen call.target := by
      rw [aimed]
      refine sees fun content => ?_
      rw [inside]
      exact Supplies.not_of_gone leaves.parts leaves.gone
    obtain ⟨block, found, reference, carried⟩ := refers.block
    exact ⟨quiet.unwarned sound found reference carried unseen,
      refers.unreported sound (mapError_eq_ok.mp ran) unseen⟩

/-- A method of the robot that calls a mechanism. -/
def callingMethod : List SessionEdit :=
  [.create .methodDef (.method {}), .setField ⟨1⟩ Field.name "run",
    .create .methodCall (.call { target := .mechanism "x" "X", name := "go" }), .connectSocket ⟨1⟩ Socket.stack ⟨2⟩]

def callingRobot : Session := callingMethod.foldl Session.edit (openedHolder {})

/-- Without the mechanism the robot shows no warning, and its code comes without a diagnostic. -/
theorem callingRobot_opens : ∃ s generated, Session.load callingRobot.toForest {} .standard = .ok s ∧
    Code.generate .robot "A" s.graph s.scope {} = .ok generated ∧ s.warnings = [] ∧ generated.diagnostics = [] ∧
    Code.Refers s.graph s.scope ⟨2⟩ .methodCall { target := .mechanism "x" "X", name := "go" } := by
  let s := (Session.load callingRobot.toForest {} .standard).toOption.getD {}
  have shows : ((Graph.ofForest callingRobot.toForest).toBool = true ∧ s.warnings = [] ∧
      (Code.generate .robot "A" s.graph s.scope {}).toOption.map (·.diagnostics) = some []) ∧
      (s.graph.topBlocks = [⟨0⟩, ⟨1⟩] ∧ s.graph.statementStack ⟨1⟩ Socket.stack = [⟨2⟩]) ∧
      (s.graph.block? ⟨1⟩).map (·.kind) = some .methodDef ∧
      (s.graph.block? ⟨2⟩).map (fun block => (block.kind, block.extra))
        = some (.methodCall, .call { target := .mechanism "x" "X", name := "go" }) := by
    decide +kernel
  obtain ⟨⟨rebuilt, unwarned, unreported⟩, ⟨top, stack⟩, definition, calls⟩ := shows
  have loaded : Session.load callingRobot.toForest {} .standard = .ok s :=
    toOption_getD (Session.load_ok_iff.mpr (toBool_iff.mp rebuilt)) {}
  obtain ⟨generated, made, silent⟩ := Option.map_eq_some_iff.mp unreported
  obtain ⟨head, headFound, headKind⟩ := Option.map_eq_some_iff.mp definition
  obtain ⟨block, blockFound, is⟩ := Option.map_eq_some_iff.mp calls
  obtain ⟨kind, carried⟩ := Prod.mk.inj is
  refine ⟨s, generated, loaded, toOption_eq_some.mp made, unwarned, silent, .call ?_ blockFound kind carried⟩
  exact .stated (.definition (by rw [top]; exact .tail _ (.head _)) headFound headKind)
    (by rw [stack]; exact .head _) blockFound (by rw [kind]; rfl)

/-- The mechanism is created, so that the robot could see it, and deleted. The robot is found to be fine. -/
theorem removed_unreported_robot :
    let steps : List EditorStep := .createProject "A" :: .load "A/A.blk" :: callingMethod.map .edit ++
      [.save, .createModule "A" "M" .opMode, .createModule "A" "X" .mechanism]
    let editor := (steps.map fun step => Turn.edit (.step step)).foldl turn ({ store := {} } : Editor Shelf)
    ∃ after opened generated, editor.deleteModule "A/X.blk" = .ok after ∧
      CommandLine.loadAndGenerate { store := after.store } "A/A.blk" = .ok (opened, generated) ∧
      Code.Refers opened.session.graph opened.session.scope ⟨2⟩ .methodCall
        { target := .mechanism "x" "X", name := "go" } ∧
      ((∀ message, (⟨2⟩, message) ∉ opened.session.warnings) ∧
        ∀ diagnostic ∈ generated.diagnostics, diagnostic.block ≠ ⟨2⟩) ∧
      (CommandLine.run {} after.store (.check "A/A.blk")).1.output = "A/A.blk: ok\n" := by
  intro steps editor
  let r : Session := callingRobot
  have robot : Legible r .robot := ⟨openedHolder_whole {} _, by decide, by decide +kernel⟩
  -- the store after the turns
  let opened := { loneOpened newHolder r with savedText := (r.document .robot).text }
  have reached : editor = { store := workshop r newDetails newHolder, current := some opened } := by
    have stepwise : editor = steps.foldl step ({ store := {} } : Editor Shelf) := List.foldl_map
    rw [stepwise]
    change List.foldl step _ (_ :: _ :: List.map _ _ ++ _ :: _ :: _ :: []) = _
    rw [List.foldl_append, lone_edited, ← callingRobot, List.foldl_cons, lone_save robot newHolder,
      List.foldl_cons, List.foldl_cons, lone_furnished]
    rfl
  let left : Shelf :=
    { modules := [("A/A.blk", ⟨.robot, (r.document .robot).text, 0⟩),
        ("A/M.blk", ⟨.opMode, (newDetails.document .opMode).text, 0⟩)] }
  have deleted : editor.deleteModule "A/X.blk" = .ok { store := left, current := some opened } := by
    rw [reached]
    rfl
  have removes : editor.Removes "A/X.blk" { store := left, current := some opened } := .delete deleted
  obtain ⟨_, leaves⟩ := removes.leaves (reached ▸ workshop_intact r newDetails newHolder)
  -- the robot after the deletion
  obtain ⟨s, generated, loaded, made, unwarned, silent, refers⟩ := callingRobot_opens
  have listed : ModuleStore.entries left = .ok [⟨"A/A.blk", .robot, 0⟩, ⟨"A/M.blk", .opMode, 0⟩] := rfl
  have found : openModule left "A/A.blk" = .ok (loneOpened r s) :=
    openModule_lone leaves.intact listed rfl rfl rfl robot loaded
  have answered : CommandLine.loadAndGenerate { store := left } "A/A.blk" = .ok (loneOpened r s, generated) :=
    CommandLine.loadAndGenerate_eq_ok.mpr ⟨found, mapError_eq_ok.mpr made⟩
  have intact : Intact ({} : Shelf) := ⟨rfl, .nil⟩
  obtain ⟨_, parts, others⟩ := removed_unreported intact (fun _ => rfl) {} _ removes
  cases (show ModulePath.ofText? "A/X.blk" = some ⟨"A", "X"⟩ from rfl).symm.trans parts
  obtain ⟨-, silence⟩ := others "A/A.blk" (by decide) {}
  have quiet : (∀ message, (⟨2⟩, message) ∉ s.warnings) ∧
      ∀ diagnostic ∈ generated.diagnostics, diagnostic.block ≠ ⟨2⟩ :=
    silence (loneOpened r s) generated answered rfl ⟨2⟩ .methodCall _ "x" refers rfl
  have checked := CommandLine.run_check (rfl : ({} : Config).options = {}) answered
  rw [show (loneOpened r s).session.warnings = [] from unwarned, silent] at checked
  exact ⟨{ store := left, current := some opened }, loneOpened r s, generated, deleted, answered, refers, quiet,
    by rw [checked]; rfl⟩

end Editor
end RobotBlocks
