import RobotBlocks.Proofs.Editor.Staffed
import RobotBlocks.Proofs.Session.Rescoped

/-! Copies of workspaces. A module is opened against the robot and the mechanisms of its workspace, which are
found by their paths. In the copy all paths are new, and the robot has another name; but what stands under them
corresponds path by path, so that every reference resolves as it does in the original. -/
namespace RobotBlocks

open LawfulStore

section Correspondence

variable {σ : Type} [ModuleStore σ] [LawfulStore σ] {store store' : σ} {oldName newName source target : String}

namespace Staffed

variable (staffed : Staffed store)
  (copied : Relocated Prod.fst id true oldName newName (held store) (held store'))
  (lands : Lands Prod.fst (held store) oldName newName source target)
include staffed copied lands

theorem copied_apart : oldName ≠ newName := by
  rintro rfl
  obtain ⟨own, path, here, parts, inside, -⟩ := id lands
  cases (staffed.vacant copied lands parts inside).symm.trans here

/-- The original is as it was. -/
theorem copied_old {text : String} {path : ModulePath} (parts : ModulePath.ofText? text = some path)
    (inside : path.workspace = oldName) : held store' text = held store text := by
  have apart := staffed.copied_apart copied lands
  by_cases leaves : ∃ target, Lands Prod.fst (held store) oldName newName text target
  · obtain ⟨target, leaves⟩ := leaves
    exact copied.old text target leaves
  · refine copied.others text (fun target lands => leaves ⟨target, lands⟩) ?_
    rintro source ⟨own, path', -, parts', -, rfl⟩
    cases parts.symm.trans (ModulePath.under_valid _ parts' copied.named)
    exact apart (inside.symm.trans ModulePath.under_workspace)

/-- The copy has what landed there. -/
theorem copied_new {text : String} {path : ModulePath} {own : ModuleType × String}
    (parts : ModulePath.ofText? text = some path) (inside : path.workspace = newName) :
    held store' text = some own ↔
      ∃ source, Lands Prod.fst (held store) oldName newName source text ∧ held store source = some own := by
  have apart := staffed.copied_apart copied lands
  constructor
  · intro here
    by_contra stray
    have notNew : ∀ source, ¬ Lands Prod.fst (held store) oldName newName source text := by
      intro source lands
      obtain ⟨-, own', before, there⟩ := copied.arrived _ _ lands
      exact stray ⟨source, lands, before.trans (there.symm.trans here)⟩
    have notOld : ∀ target, ¬ Lands Prod.fst (held store) oldName newName text target := by
      rintro target ⟨own', path', -, parts', inside', -⟩
      cases parts.symm.trans parts'
      exact apart (inside'.symm.trans inside)
    have before := copied.others text notOld notNew
    rw [staffed.vacant copied lands parts inside] at before
    cases before.symm.trans here
  · rintro ⟨source, lands, before⟩
    obtain ⟨-, own', before', there⟩ := copied.arrived _ _ lands
    cases before.symm.trans before'
    exact there

/-- A mechanism that the original sees beside it is one that the copy sees beside it. -/
theorem supplies_copied {name : String} {content : ModuleContent} :
    Editor.Supplies store' oldName source name content ↔ Editor.Supplies store' newName target name content := by
  constructor
  · rintro ⟨path, text, differs, parts, here, parsed⟩
    rw [staffed.copied_old copied lands parts rfl] at here
    have lands' : Lands Prod.fst (held store) oldName newName path (ModulePath.text ⟨newName, name⟩) :=
      ⟨_, _, here, parts, rfl, rfl⟩
    have parts' := ModulePath.under_valid .mechanism parts copied.named
    refine ⟨_, text, fun same => ?_, parts',
      (staffed.copied_new copied lands parts' rfl).mpr ⟨path, lands', here⟩, parsed⟩
    exact differs (copied.apart _ _ _ (same ▸ lands') lands)
  · rintro ⟨path, text, differs, parts, here, parsed⟩
    obtain ⟨origin, lands', before⟩ := (staffed.copied_new copied lands parts rfl).mp here
    obtain ⟨own, place, before', parts', rfl, aimed⟩ := id lands'
    cases before.symm.trans before'
    have named : (⟨newName, place.module⟩ : ModulePath) = ⟨newName, name⟩ := by
      rw [aimed] at parts
      exact Option.some.inj ((ModulePath.under_valid .mechanism parts' copied.named).symm.trans parts)
    cases named
    refine ⟨origin, text, ?_, parts', (staffed.copied_old copied lands parts' rfl).trans before, parsed⟩
    rintro rfl
    exact differs (lands'.target_unique lands)

end Staffed
end Correspondence

/-! Sessions on the same blocks. -/

namespace Session

variable {s : Session} {scope : Scope} {type : ModuleType} {name name' : String} {options : Code.Options}

theorem generate_rescope (alike : s.scope.Alike scope) (named : type ≠ .robot → name = name') :
    (s.rescope scope).generate type name' options = s.generate type name options := by
  rw [generate, generate, Code.generate_alike alike s.graph named options]
  rfl

theorem contentText_rescope (alike : s.scope.Alike scope) (named : type ≠ .robot → name = name') :
    (s.rescope scope).contentText type name' options = s.contentText type name options := by
  rw [contentText, contentText, content, content, generate_rescope alike named]
  rfl

end Session

namespace Editor

variable {σ : Type} [ModuleStore σ]

/-- Two modules that show the same when they are open. -/
structure OpensAlike (first second : OpenModule × Editor σ) : Prop where
  generate : first.2.generate = second.2.generate
  warnings : first.1.session.warnings = second.1.session.warnings
  isModified : first.2.isModified = second.2.isModified

variable [LawfulStore σ] {store : σ} {module module' : Module}

/-- Two modules of one text that see the same around them. -/
structure Counterparts (store : σ) (module module' : Module) : Prop where
  type : module'.type = module.type
  name : module.type ≠ .robot → module.name = module'.name
  supplies : ∀ name content, Supplies store module.workspace module.path name content ↔
    Supplies store module'.workspace module'.path name content

namespace Counterparts

variable (counterparts : Counterparts store module module') (intact : Intact store)
include counterparts intact

theorem scopes {mechanisms mechanisms' : Labelled ModuleContent} (robot : Option ModuleContent)
    (fetched : fetchMechanisms store module.workspace module.path = .ok mechanisms)
    (fetched' : fetchMechanisms store module'.workspace module'.path = .ok mechanisms') :
    (scopeOf robot mechanisms).Alike (scopeOf robot mechanisms') := by
  refine .of_members rfl fun name => Option.ext fun known => ?_
  simp only [get?_scopeOf intact fetched, get?_scopeOf intact fetched', counterparts.supplies]

theorem openSession (content : ModuleContent) (robot : Option ModuleContent) :
    Parallel (fun s s' => ∃ scope, s.scope.Alike scope ∧ s' = s.rescope scope)
      (openSession store module content robot) (openSession store module' content robot) := by
  obtain ⟨mechanisms, fetched⟩ := fetchMechanisms_ok intact module.workspace module.path
  obtain ⟨mechanisms', fetched'⟩ := fetchMechanisms_ok intact module'.workspace module'.path
  have alike := counterparts.scopes intact robot fetched fetched'
  simp only [Editor.openSession, fetched, fetched', fromStore_ok]
  change Parallel _ ((Session.load content.blocks (scopeOf robot mechanisms) .standard).mapError EditorError.graph)
    ((Session.load content.blocks (scopeOf robot mechanisms') .standard).mapError EditorError.graph)
  rw [Session.load_rescope alike]
  cases loaded : Session.load content.blocks (scopeOf robot mechanisms) .standard with
  | error error => exact .error _
  | ok s =>
    have scope : s.scope = scopeOf robot mechanisms := Session.load_scope loaded
    exact .ok ⟨_, scope ▸ alike, rfl⟩

theorem openFound (text : String) (robotText : Option String) :
    Parallel (fun opened opened' => opened.module = module ∧ ∃ scope, opened.session.scope.Alike scope ∧
        opened' = { opened with module := module', session := opened.session.rescope scope })
      (openFound store module text robotText) (openFound store module' text robotText) := by
  rw [Editor.openFound, Editor.openFound, counterparts.type]
  refine .check fun content => .check fun robot => ?_
  refine (counterparts.openSession intact content robot).bind ?_
  rintro s _ ⟨scope, alike, rfl⟩
  exact .ok ⟨rfl, scope, alike, rfl⟩

theorem load {editor : Editor σ} {path path' : String} (here : store = editor.store) (text : String)
    (robotText : Option String)
    (opens : openModule store path = Editor.openFound store module text robotText)
    (opens' : openModule store path' = Editor.openFound store module' text robotText) :
    Parallel OpensAlike (editor.load path) (editor.load path') := by
  subst here
  rw [Editor.load, Editor.load, opens, opens']
  refine (counterparts.openFound intact text robotText).bind ?_
  rintro opened _ ⟨rfl, scope, alike, rfl⟩
  refine .ok ⟨?_, rfl, ?_⟩
  · change _ = (opened.session.rescope scope).generate module'.type module'.name editor.options
    rw [counterparts.type, Session.generate_rescope alike counterparts.name]
    rfl
  · change _ = ((opened.session.rescope scope).contentText module'.type module'.name editor.options >>= _)
    rw [counterparts.type, Session.contentText_rescope alike counterparts.name]
    rfl

end Counterparts

end Editor

/-- A module and its copy see the same around them. -/
theorem Staffed.counterparts {σ : Type} [ModuleStore σ] [LawfulStore σ] {store store' : σ}
    {oldName newName source target : String} {own : ModuleType × String} {path : ModulePath} (staffed : Staffed store)
    (copied : Relocated Prod.fst id true oldName newName (held store) (held store'))
    (lands : Lands Prod.fst (held store) oldName newName source target) (modified modified' : Int) :
    Editor.Counterparts store' ⟨source, own.1, path.module, oldName, modified⟩
      ⟨target, own.1, (path.under own.1 newName).module, newName, modified'⟩ where
  type := rfl
  name crew := by
    rw [ModulePath.under, if_neg crew]
  supplies _ _ := staffed.supplies_copied copied lands

namespace Editor

/-- After a workspace of a store that editors and commands wrote is copied, each of its modules and the copy of
it are opened both or neither; and when they are, they give the same code with the same diagnostics, show the
same warnings and are both modified or both not. -/
theorem copy_opens_alike {σ : Type} [ModuleStore σ] [RelocatingStore σ] {start : σ} (intact : Intact start)
    (empty : ∀ path, held start path = none) (options : Code.Options) (turns : List Turn) {editor : Editor σ}
    {oldName newName source target : String} :
    let store := (turns.foldl turn { store := start, options }).store
    ModuleStore.moveWorkspace store oldName newName true = .ok editor.store →
    Lands Prod.fst (held store) oldName newName source target →
      Parallel OpensAlike (editor.load source) (editor.load target) := by
  intro store moved lands
  have staffed : Staffed store :=
    (foldl_turn_changes { store := start, options } turns).staffed (.empty intact empty)
  have copied := RelocatingStore.relocates staffed.intact moved
  have intact' := (MovingStore.moveWorkspace_ok staffed.intact moved).1
  obtain ⟨own, path, before, parts, rfl, rfl⟩ := id lands
  have parts' := ModulePath.under_valid own.1 parts copied.named
  have here : held editor.store source = some own := (staffed.copied_old copied lands parts rfl).trans before
  have there : held editor.store (path.under own.1 newName).text = some own :=
    (staffed.copied_new copied lands parts' ModulePath.under_workspace).mpr ⟨source, lands, before⟩
  -- the two robots are one text
  have robots : held editor.store (ModulePath.robot newName).text
      = held editor.store (ModulePath.robot path.workspace).text := by
    obtain ⟨-, robot, first, second⟩ := copied.arrived _ _ (staffed.lands_robot lands)
    rw [second, staffed.copied_old copied lands (ModulePath.ofText?_robot parts) rfl, first, id]
  obtain ⟨modified, opens⟩ := openModule_found intact' parts here
  obtain ⟨modified', opens'⟩ := openModule_found intact' parts' there
  rw [ModulePath.under_workspace, robots] at opens'
  exact (staffed.counterparts copied lands modified modified').load intact' rfl _ _ opens opens'

/-- Three modules are copied in the order of their paths. -/
theorem workshop_copied (r m x : Session) :
    ∃ copied, ModuleStore.moveWorkspace (workshop r m x) "A" "B" true = .ok copied ∧
      held copied "A/A.blk" = some (.robot, (r.document .robot).text) ∧
      held copied "A/M.blk" = some (.opMode, (m.document .opMode).text) := by
  have opens : (workshop r m x).open? = .ok (workshop r m x) := rfl
  have listed : (workshop r m x).list = workshopEntries := rfl
  have planned : planWorkspaceMove workshopEntries "A" "B"
      = .ok [("A/A.blk", "B/B.blk"), ("A/M.blk", "B/M.blk"), ("A/X.blk", "B/X.blk")] := rfl
  simp only [ModuleStore.moveWorkspace, opens, listed, planned, bind, Except.bind]
  exact ⟨_, rfl, rfl, rfl⟩

/-- A new opmode beside a mechanism. -/
theorem copy_opens_alike_opMode :
    let turns : List Turn := [.edit (.step (.createProject "A")), .edit (.step (.createModule "A" "M" .opMode)),
      .edit (.step (.createModule "A" "X" .mechanism))]
    let store := (turns.foldl turn ({ store := {} } : Editor Shelf)).store
    ∃ copied : Shelf, ModuleStore.moveWorkspace store "A" "B" true = .ok copied ∧
      Lands Prod.fst (held store) "A" "B" "A/M.blk" "B/M.blk" ∧
      Parallel OpensAlike (({ store := copied } : Editor Shelf).load "A/M.blk")
        (({ store := copied } : Editor Shelf).load "B/M.blk") ∧
      ∃ answer, ({ store := copied } : Editor Shelf).load "A/M.blk" = .ok answer := by
  intro turns store
  have intact : Intact ({} : Shelf) := ⟨rfl, .nil⟩
  have stored : store = workshop newHolder newDetails newHolder := by
    change ((([EditorStep.createProject "A", .createModule "A" "M" .opMode, .createModule "A" "X" .mechanism]).foldl
      step ({ store := {} } : Editor Shelf))).store = _
    rw [List.foldl_cons, lone_created, List.foldl_cons, List.foldl_cons, lone_furnished]
    rfl
  obtain ⟨copied, moved, robot, opMode⟩ := workshop_copied newHolder newDetails newHolder
  rw [← stored] at moved
  have here : held store "A/M.blk" = some (.opMode, (newDetails.document .opMode).text) := by rw [stored]; rfl
  have lands : Lands Prod.fst (held store) "A" "B" "A/M.blk" "B/M.blk" := ⟨_, ⟨"A", "M"⟩, here, rfl, rfl, rfl⟩
  have alike : Parallel OpensAlike (({ store := copied } : Editor Shelf).load "A/M.blk")
      (({ store := copied } : Editor Shelf).load "B/M.blk") :=
    copy_opens_alike intact (fun _ => rfl) {} turns moved lands
  refine ⟨copied, moved, lands, alike, load_ok_iff.mpr ?_⟩
  have whole := legible_newDetails.whole
  have beside : held copied (ModulePath.robot "A").text = some (.robot, (newHolder.document .robot).text) := robot
  have ordered : Intact copied :=
    (MovingStore.moveWorkspace_ok (stored ▸ workshop_intact newHolder newDetails newHolder) moved).1
  refine (openModule_ok_iff ordered (rfl : ModulePath.ofText? "A/M.blk" = some ⟨"A", "M"⟩) opMode
    whole.toForest_distinct (by decide)).mpr ⟨legible_newDetails.fits, ⟨_, rfl⟩, fun _ type text there => ?_⟩
  cases beside.symm.trans there
  exact ⟨_, (legible_newHolder (by decide)).parse⟩

end Editor
end RobotBlocks
