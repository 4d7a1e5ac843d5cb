import RobotBlocks.Proofs.Editor.Run
import RobotBlocks.Proofs.Session.Document

/-! Stores whose modules were all written by editors, each as a module of the type that it has. Every run of
an editor leaves such a store so, and what is read back from one was stored from a session. -/
namespace RobotBlocks

open Json Decoder LawfulStore

/-- A text that storing a session as a module of some type makes, under any name and options. -/
def Composed (type : ModuleType) (text : String) : Prop :=
  ∃ (s : Session) (name : String) (options : Code.Options),
    s.Whole ∧ type ≠ .unknown ∧ s.contentText type name options = .ok text

theorem Composed.written {type : ModuleType} {text : String} (composed : Composed type text) :
    Written type text := by
  obtain ⟨s, name, options, whole, known, made⟩ := composed
  exact whole.written known made

theorem Composed.known {type : ModuleType} {text : String} (composed : Composed type text) :
    type ≠ .unknown := by
  obtain ⟨-, -, -, -, known, -⟩ := composed
  exact known

/-- The text of a stored session is read back if its document fits. -/
theorem Session.Whole.parse_text {s : Session} {type : ModuleType} (whole : s.Whole) (known : type ≠ .unknown) :
    ModuleContent.parse (s.document type).text
      = if fits levels (s.document type).encode then .ok (s.document type) else .error .malformed :=
  ModuleContent.parse_text whole.toForest_distinct known

/-- What is read back from a stored session is its document. -/
theorem Session.Whole.parse_document {s : Session} {type : ModuleType} {content : ModuleContent}
    (whole : s.Whole) (known : type ≠ .unknown)
    (parsed : ModuleContent.parse (s.document type).text = .ok content) : content = s.document type := by
  rw [whole.parse_text known] at parsed
  split at parsed
  · exact (Except.ok.inj parsed).symm
  · cases parsed

theorem Composed.parsed {type : ModuleType} {text : String} {content : ModuleContent}
    (composed : Composed type text) (parsed : ModuleContent.parse text = .ok content) :
    ∃ s : Session, s.Whole ∧ content = s.document type := by
  obtain ⟨s, name, options, whole, known, made⟩ := composed
  obtain rfl := Session.contentText_document made
  exact ⟨s, whole, whole.parse_document known parsed⟩

variable {σ : Type} [ModuleStore σ] [LawfulStore σ] {store store' : σ} {path text : String}
  {type : ModuleType} {module : Module} {modules : List Module} {robot : Option ModuleContent}
  {options : Code.Options}

/-- A store that answers and whose texts were all composed, for modules of the types under which they are
kept. An editor whose module is deleted and created again under it may break this: it saves for the type
that it opened. -/
structure Authored (store : σ) : Prop where
  intact : Intact store
  composed : ∀ {path : String} {type : ModuleType} {text : String},
    held store path = some (type, text) → Composed type text

namespace Authored

theorem stocked (authored : Authored store) : Stocked store :=
  ⟨authored.intact, fun here => (authored.composed here).written⟩

theorem overwrite (authored : Authored store) (intact : Intact store') (composed : Composed type text)
    (others : ∀ other, held store' other = if other = path then some (type, text) else held store other) :
    Authored store' := by
  refine ⟨intact, fun {other _ _} here => ?_⟩
  rw [others] at here
  split at here
  · cases here
    exact composed
  · exact authored.composed here

theorem save (authored : Authored store) (holds : Holds store module) (composed : Composed module.type text)
    (saved : ModuleStore.save store module.path text = .ok store') : Authored store' := by
  obtain ⟨stocked, -, others⟩ := authored.stocked.save holds composed.written saved
  exact authored.overwrite stocked.intact composed others

/-- A store with some texts of the one authored store and some of the other. -/
theorem between {there : σ} (authored : Authored store) (authored' : Authored store') (intact : Intact there)
    (between : ∀ path, held there path = held store' path ∨ held there path = held store path) :
    Authored there := by
  refine ⟨intact, fun {path _ _} here => ?_⟩
  rcases between path with same | same
  · exact authored'.composed (same ▸ here)
  · exact authored.composed (same ▸ here)

end Authored

namespace Editor

theorem refreshed_composed {newText : String} (authored : Authored store)
    (here : held store module.path = some (module.type, text))
    (made : refreshed options store module text robot = .ok (some newText)) :
    Composed module.type newText := by
  have known := (authored.composed here).known
  unfold refreshed at made
  cases parsed : ModuleContent.parse text with
  | error error => simp [parsed] at made
  | ok content =>
    simp only [parsed, bind_eq_ok] at made
    obtain ⟨session, opened, made⟩ := made
    obtain ⟨_, own, same⟩ := map_eq_ok.mp made
    cases same
    obtain ⟨-, -, distinct⟩ := (authored.composed here).written.parsed parsed
    exact ⟨session, _, _, openSession_whole authored.intact distinct opened, known, own⟩

theorem syncModule_authored {changed : Bool} (authored : Authored store) (holds : Holds store module)
    (synced : syncModule options store module robot = .ok (changed, store')) : Authored store' := by
  rcases syncModule_cases synced with ⟨-, rfl⟩ | ⟨fetched, newText, -, own, made, -, wrote⟩
  · exact authored
  · obtain ⟨text, here⟩ := id holds
    obtain rfl : text = fetched := by
      rw [LawfulStore.fetch_eq authored.intact, here] at own
      exact Except.ok.inj own
    exact authored.save holds (refreshed_composed authored here made) wrote

/-- By induction on the modules; a failure keeps what was stored before it. -/
theorem syncEach_authored (options : Code.Options) (robot : Option ModuleContent) (authored : Authored store)
    (holds : ∀ module ∈ modules, Holds store module) :
    Authored (syncEach options robot store modules).2 := by
  induction modules generalizing store with
  | nil => exact authored
  | cons module rest ih =>
    unfold syncEach
    cases synced : syncModule options store module robot with
    | error error => exact authored
    | ok answer =>
      obtain ⟨changed, next⟩ := answer
      have own := holds module (List.mem_cons_self ..)
      obtain ⟨-, keeps, -⟩ := syncModule_ok authored.stocked own synced
      refine ih (syncModule_authored authored own synced) fun other member => ?_
      obtain ⟨_, here⟩ := holds other (List.mem_cons_of_mem _ member)
      exact keeps here

theorem syncDependents_authored (options : Code.Options) (authored : Authored store) (saved : Module) :
    Authored (syncDependents options store saved).2 := by
  rcases syncDependents_cases options store saved with ⟨error, same⟩ | ⟨entries, robot, listed, same⟩
  · rw [same]
    exact authored
  · rw [same]
    exact syncEach_authored options robot authored (othersOf_held authored.intact listed)

variable {editor editor' : Editor σ} {start : σ}

/-- An editor of a store that only editors wrote. -/
structure Authors (editor : Editor σ) : Prop where
  authored : Authored editor.store
  opened : ∀ {opened}, editor.current = some opened → Opened editor.store opened

namespace Authors

theorem whole (authors : editor.Authors) : editor.Whole := ⟨authors.authored.stocked, authors.opened⟩

/-- A saved module stands in the store as its session shows it. -/
theorem stored {opened : OpenModule} (authors : editor.Authors) (current : editor.current = some opened)
    (made : opened.session.contentText opened.module.type opened.module.name editor.options = .ok text)
    (saved : ModuleStore.save editor.store opened.module.path text = .ok store) : Authored store := by
  have known := authors.opened current
  obtain ⟨_, here⟩ := known.holds
  have typed := (authors.authored.composed here).known
  exact authors.authored.save known.holds ⟨_, _, _, known.session, typed, made⟩ saved

theorem save (authors : editor.Authors) : editor.save.2.Authors := by
  refine ⟨?_, (save_spec authors.whole).1.opened⟩
  rcases save_cases editor with ⟨error, same⟩ | ⟨opened, text, store, current, made, saved, same⟩
  · rw [same]
    exact authors.authored
  · have authored := authors.stored current made saved
    rw [same]
    dsimp only
    split
    · exact syncDependents_authored _ authored _
    · exact authored

theorem create {type : ModuleType} {path : ModulePath} {made : String} (authors : editor.Authors)
    (known : type ≠ .unknown) (created : editor.create type path = .ok (made, editor')) :
    Authored editor'.store := by
  unfold Editor.create at created
  split at created
  · cases created
  · simp only [bind_eq_ok, pure_eq_ok, fromStore_eq_ok, Prod.mk.injEq] at created
    obtain ⟨session, started, text, content, store, stored, -, rfl⟩ := created
    obtain ⟨intact, -, others⟩ := LawfulStore.create_ok authors.authored.intact stored
    exact authors.authored.overwrite intact ⟨session, _, _, .starter started, known, content⟩ others

theorem createModule {workspace name made : String} {type : ModuleType} (authors : editor.Authors)
    (created : editor.createModule workspace name type = .ok (made, editor')) :
    Authored editor'.store := by
  simp only [Editor.createModule] at created
  split at created
  · exact absurd created throw_ne_ok
  · next movable =>
    obtain ⟨there, -, created⟩ := bind_eq_ok.mp created
    split at created
    · exact absurd created throw_ne_ok
    · refine authors.create (fun unknown => movable ?_) created
      simp [unknown]

theorem after {α : Type} {answer : Except EditorError (α × Editor σ)} (authors : editor.Authors)
    (succeeds : ∀ a next, answer = .ok (a, next) → Authored next.store) :
    Authored (editor.after answer).store := by
  cases answer with
  | error error => exact authors.authored
  | ok outcome => exact succeeds _ _ rfl

theorem change (authors : editor.Authors) (edit : Session → Session) :
    Authored (editor.change edit).store := by
  unfold Editor.change
  cases editor.current <;> exact authors.authored

theorem step (authors : editor.Authors) (step : EditorStep) : (editor.step step).Authors := by
  refine ⟨?_, (authors.whole.step step).opened⟩
  cases step with
  | createProject name => exact authors.after fun _ _ created => authors.create (by decide) created
  | createModule workspace name type => exact authors.after fun _ _ created => authors.createModule created
  | load path =>
    refine authors.after fun opened next loaded => ?_
    simp only [Editor.load, bind_eq_ok, pure_eq_ok, Prod.mk.injEq] at loaded
    obtain ⟨own, found, -, rfl⟩ := loaded
    exact authors.authored
  | edit edit => exact authors.change fun session => session.edit edit
  | mutate edit => exact authors.change fun session => { session with graph := session.graph.mutate edit }
  | flush => exact authors.change Session.settled
  | save => exact authors.save.authored

end Authors

theorem Reaches.authors (reached : Reaches start options editor) (authored : Authored start) :
    editor.Authors := by
  induction reached with
  | start => exact ⟨authored, nofun⟩
  | step _ step ih => exact ih.step step

end Editor
end RobotBlocks
