import Mathlib.Logic.Relation
import RobotBlocks.CommandLine
import RobotBlocks.Proofs.Editor.Recorded

/-! What is done to a store. Editors and the commands of the command line read much and refuse much, but what
they do to a store in the end is one of a few writes, each behind the checks that are made for it. -/
namespace RobotBlocks

variable {σ : Type} [ModuleStore σ]

/-- A write that an editor or a command makes, with what was checked before it. -/
inductive Change (store : σ) : σ → Prop where
  | save {path text : String} {after : σ} (saved : ModuleStore.save store path text = .ok after) :
      Change store after
  | createProject {name text : String} {after : σ} (named : isValidName name = true)
      (created : ModuleStore.create store .robot (ModulePath.robot name).text text = .ok after) : Change store after
  | createModule {type : ModuleType} {path : ModulePath} {text : String} {after : σ}
      (workspace : isValidName path.workspace = true) (module : isValidName path.module = true)
      (crew : type ≠ .robot) (known : type ≠ .unknown)
      (led : ModuleStore.contains store (ModulePath.robot path.workspace).text = .ok true)
      (created : ModuleStore.create store type path.text text = .ok after) : Change store after
  | moveModule {source newName : String} {path : ModulePath} {copy : Bool} {after : σ}
      (parts : ModulePath.ofText? source = some path) (crew : path.module ≠ path.workspace)
      (named : isValidName newName = true)
      (moved : ModuleStore.moveModule store source (ModulePath.text ⟨path.workspace, newName⟩) copy = .ok after) :
      Change store after
  | deleteModule {source : String} {path : ModulePath} {after : σ} (parts : ModulePath.ofText? source = some path)
      (crew : path.module ≠ path.workspace) (deleted : ModuleStore.delete store source = .ok after) :
      Change store after
  | moveWorkspace {oldName newName : String} {copy : Bool} {after : σ}
      (moved : ModuleStore.moveWorkspace store oldName newName copy = .ok after) : Change store after
  | deleteWorkspace {name : String} {after : σ} (deleted : ModuleStore.deleteWorkspace store name = .ok after) :
      Change store after

/-- Writes one after the other. -/
abbrev Changes : σ → σ → Prop := Relation.ReflTransGen Change

namespace Editor

variable {store : σ} {editor editor' : Editor σ} {module : Module} {robot : Option ModuleContent}
  {options : Code.Options}

theorem syncModule_changes {changed : Bool} {store' : σ}
    (synced : syncModule options store module robot = .ok (changed, store')) : Changes store store' := by
  rcases syncModule_cases synced with ⟨-, rfl⟩ | ⟨_, _, -, -, -, -, wrote⟩
  · exact .refl
  · exact .single (.save wrote)

/-- By induction on the modules; a failure keeps what was stored before it. -/
theorem syncEach_changes (options : Code.Options) (robot : Option ModuleContent) (modules : List Module) :
    Changes store (syncEach options robot store modules).2 := by
  induction modules generalizing store with
  | nil => exact .refl
  | cons module rest ih =>
    unfold syncEach
    cases synced : syncModule options store module robot with
    | error error => exact .refl
    | ok answer => exact (syncModule_changes synced).trans ih

theorem syncDependents_changes (options : Code.Options) (saved : Module) :
    Changes store (syncDependents options store saved).2 := by
  unfold syncDependents
  extract_lets prepared
  cases prepared with
  | error error => exact .refl
  | ok answer => exact syncEach_changes options answer.2 answer.1

theorem save_changes (editor : Editor σ) : Changes editor.store editor.save.2.store := by
  rcases save_cases editor with ⟨error, same⟩ | ⟨opened, text, store, -, -, saved, same⟩
  · rw [same]
  · rw [same]
    dsimp only
    split
    · exact .head (.save saved) (syncDependents_changes editor.options opened.module)
    · exact .single (.save saved)

/-- A new module is written under two valid names. -/
theorem create_stored {type : ModuleType} {path : ModulePath} {made : String}
    (created : editor.create type path = .ok (made, editor')) : isValidName path.workspace = true ∧
      isValidName path.module = true ∧
        ∃ text, ModuleStore.create editor.store type path.text text = .ok editor'.store := by
  unfold Editor.create at created
  split at created
  · cases created
  · next valid =>
    simp only [List.find?_eq_none, List.forall_mem_cons, Bool.not_eq_true, Bool.not_eq_false'] at valid
    simp only [bind_eq_ok, pure_eq_ok, fromStore_eq_ok, Prod.mk.injEq] at created
    obtain ⟨session, -, text, -, store, stored, -, rfl⟩ := created
    exact ⟨valid.1, valid.2.1, text, stored⟩

theorem createProject_changes {name made : String} (created : editor.createProject name = .ok (made, editor')) :
    Change editor.store editor'.store := by
  obtain ⟨named, -, text, stored⟩ := create_stored created
  exact .createProject named stored

theorem createModule_changes {workspace name made : String} {type : ModuleType}
    (created : editor.createModule workspace name type = .ok (made, editor')) :
    Change editor.store editor'.store := by
  simp only [Editor.createModule] at created
  split at created
  · exact absurd created throw_ne_ok
  · next movable =>
    simp only [Bool.or_eq_true, decide_eq_true_eq, not_or] at movable
    obtain ⟨there, led, created⟩ := bind_eq_ok.mp created
    split at created
    · exact absurd created throw_ne_ok
    · next present =>
      obtain ⟨workspace, module, text, stored⟩ := create_stored created
      obtain rfl : there = true := by simpa using present
      exact .createModule workspace module movable.1 movable.2 (fromStore_eq_ok.mp led) stored

theorem parseMovable_eq_ok {path : String} {parts : ModulePath} : parseMovable path = .ok parts ↔
    ModulePath.ofText? path = some parts ∧ parts.module ≠ parts.workspace := by
  simp only [parseMovable, bind_eq_ok, fromStore_eq_ok, parsePath]
  cases ModulePath.ofText? path with
  | none => simp
  | some own =>
    simp only [Except.ok.injEq, exists_eq_left', throw_bind, refuse_eq_ok, pure_eq_ok, Option.some.injEq]
    constructor
    · rintro ⟨crew, rfl⟩
      exact ⟨rfl, crew⟩
    · rintro ⟨rfl, crew⟩
      exact ⟨crew, rfl⟩

theorem moveModule_stored {path newName made : String} {copy : Bool}
    (moved : editor.moveModule path newName copy = .ok (made, editor')) : ∃ parts,
      ModulePath.ofText? path = some parts ∧ parts.module ≠ parts.workspace ∧ isValidName newName = true ∧
        ModuleStore.moveModule editor.store path (ModulePath.text ⟨parts.workspace, newName⟩) copy
          = .ok editor'.store := by
  simp only [Editor.moveModule, bind_eq_ok, parseMovable_eq_ok] at moved
  obtain ⟨parts, ⟨parsed, crew⟩, moved⟩ := moved
  split at moved
  · exact absurd moved throw_ne_ok
  · next named =>
    simp only [bind_eq_ok, pure_eq_ok, fromStore_eq_ok, Prod.mk.injEq] at moved
    obtain ⟨store, carried, -, rfl⟩ := moved
    have same : (if copy = true then { editor with store } else closeIfOpen { editor with store } path).store
        = store := by
      split
      · rfl
      · exact closeIfOpen_store path
    rw [same]
    exact ⟨parts, parsed, crew, by simpa using named, carried⟩

theorem deleteModule_stored {path : String} (deleted : editor.deleteModule path = .ok editor') : ∃ parts,
    ModulePath.ofText? path = some parts ∧ parts.module ≠ parts.workspace ∧
      ModuleStore.delete editor.store path = .ok editor'.store := by
  simp only [Editor.deleteModule, bind_eq_ok, pure_eq_ok, fromStore_eq_ok, parseMovable_eq_ok] at deleted
  obtain ⟨parts, ⟨parsed, crew⟩, store, gone, rfl⟩ := deleted
  rw [closeIfOpen_store]
  exact ⟨parts, parsed, crew, gone⟩

theorem moveModule_changes {path newName made : String} {copy : Bool}
    (moved : editor.moveModule path newName copy = .ok (made, editor')) : Change editor.store editor'.store := by
  obtain ⟨parts, parsed, crew, named, carried⟩ := moveModule_stored moved
  exact .moveModule parsed crew named carried

theorem deleteModule_changes {path : String} (deleted : editor.deleteModule path = .ok editor') :
    Change editor.store editor'.store := by
  obtain ⟨parts, parsed, crew, gone⟩ := deleteModule_stored deleted
  exact .deleteModule parsed crew gone

theorem after_changes {α : Type} {answer : Except EditorError (α × Editor σ)}
    (succeeds : ∀ a next, answer = .ok (a, next) → Change editor.store next.store) :
    Changes editor.store (editor.after answer).store := by
  cases answer with
  | error error => exact .refl
  | ok outcome => exact .single (succeeds _ _ rfl)

omit [ModuleStore σ] in
theorem change_store (editor : Editor σ) (edit : Session → Session) : (editor.change edit).store = editor.store := by
  unfold Editor.change
  cases editor.current <;> rfl

theorem step_changes (editor : Editor σ) (step : EditorStep) : Changes editor.store (editor.step step).store := by
  cases step with
  | createProject name => exact after_changes fun _ _ created => createProject_changes created
  | createModule workspace name type => exact after_changes fun _ _ created => createModule_changes created
  | load path =>
    change Changes editor.store (editor.after (editor.load path)).store
    cases loaded : editor.load path with
    | error error => exact .refl
    | ok answer =>
      simp only [Editor.load, bind_eq_ok, pure_eq_ok] at loaded
      obtain ⟨opened, -, rfl⟩ := loaded
      exact .refl
  | edit edit => exact change_store editor (fun session => session.edit edit) ▸ .refl
  | mutate edit =>
    exact change_store editor (fun session => { session with graph := session.graph.mutate edit }) ▸ .refl
  | flush => exact change_store editor Session.settled ▸ .refl
  | save => exact save_changes editor

/-- An operation of the store that is refused changes nothing. -/
theorem toOption_changes {answer : Except StoreError σ}
    (succeeds : ∀ after, answer = .ok after → Change store after) : Changes store (answer.toOption.getD store) := by
  cases answer with
  | error error => exact .refl
  | ok after => exact .single (succeeds after rfl)

theorem perform_changes (editor : Editor σ) (command : Command) :
    Changes editor.store (editor.perform command).store := by
  cases command with
  | step step => exact step_changes editor step
  | moveModule path newName copy => exact after_changes fun _ _ moved => moveModule_changes moved
  | deleteModule path =>
    change Changes editor.store ((editor.deleteModule path).toOption.getD editor).store
    cases deleted : editor.deleteModule path with
    | error error => exact .refl
    | ok next => exact .single (deleteModule_changes deleted)
  | moveWorkspace oldName newName copy => exact toOption_changes fun _ moved => .moveWorkspace moved
  | deleteWorkspace name => exact toOption_changes fun _ deleted => .deleteWorkspace deleted
  | restart options => exact .refl

end Editor

/-! The command line. -/

namespace CommandLine

open Editor

variable {store : σ}

theorem withPath_changes (editor : Editor σ) {answer : Except EditorError (String × Editor σ)}
    (succeeds : ∀ path next, answer = .ok (path, next) → Change editor.store next.store) :
    Changes editor.store (withPath editor answer).2 := by
  cases answer with
  | error error => exact .refl
  | ok outcome => exact .single (succeeds _ _ rfl)

theorem withStore_changes {answer : Except StoreError σ}
    (succeeds : ∀ after, answer = .ok after → Change store after) : Changes store (withStore store answer).2 := by
  cases answer with
  | error error => exact .refl
  | ok after => exact .single (succeeds after rfl)

theorem run_changes (config : Config) (store : σ) (command : Command) :
    Changes store (run config store command).2 := by
  let editor : Editor σ := { store, options := config.options }
  unfold run
  cases command with
  | list => dsimp only; split <;> exact .refl
  | newProject name => exact withPath_changes editor fun _ _ created => createProject_changes created
  | newModule workspace name type =>
    dsimp only
    split
    · exact .refl
    · exact withPath_changes editor fun _ _ created => createModule_changes created
  | generate path => dsimp only; split <;> exact .refl
  | check path => dsimp only; split <;> exact .refl
  | moveModule path newName copy => exact withPath_changes editor fun _ _ moved => moveModule_changes moved
  | deleteModule path =>
    dsimp only
    split
    · exact .refl
    · next deleted => exact .single (deleteModule_changes deleted)
  | moveWorkspace source target copy => exact withStore_changes fun _ moved => .moveWorkspace moved
  | deleteWorkspace name => exact withStore_changes fun _ deleted => .deleteWorkspace deleted

end CommandLine

/-! Turns. -/

/-- Editors and commands take turns at one store. -/
inductive Turn where
  | edit (command : Command)
  | command (config : Config) (command : CommandLine.Command)

/-- An open module stays open while a command changes the store. -/
def Editor.turn (editor : Editor σ) : Turn → Editor σ
  | .edit command => editor.perform command
  | .command config command => { editor with store := (CommandLine.run config editor.store command).2 }

theorem Editor.foldl_turn_changes (editor : Editor σ) (turns : List Turn) :
    Changes editor.store (turns.foldl Editor.turn editor).store := by
  induction turns generalizing editor with
  | nil => exact .refl
  | cons turn rest ih =>
    refine .trans ?_ (ih (editor.turn turn))
    cases turn with
    | edit command => exact perform_changes editor command
    | command config command => exact CommandLine.run_changes config editor.store command

end RobotBlocks
