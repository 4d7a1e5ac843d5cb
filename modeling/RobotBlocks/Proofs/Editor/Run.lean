import RobotBlocks.Proofs.Editor.Following

/-! Runs of an editor over a store that nobody else writes. -/
namespace RobotBlocks

open Json Decoder LawfulStore

/-- What one does with an editor. -/
inductive EditorStep where
  | createProject (name : String)
  | createModule (workspace name : String) (type : ModuleType)
  | load (path : String)
  | edit (edit : SessionEdit)
  /-- An edit of the graph itself, whose events wait. -/
  | mutate (edit : Graph.Mutation)
  /-- The waiting events are handled. -/
  | flush
  | save

namespace Editor

theorem getOpen_eq_ok {σ : Type} {editor : Editor σ} {opened : OpenModule} :
    editor.getOpen = .ok opened ↔ editor.current = some opened := by
  unfold getOpen
  cases editor.current <;> simp

theorem isModified_made {σ : Type} {editor : Editor σ} {opened : OpenModule} {text : String}
    (current : editor.current = some opened)
    (made : opened.session.contentText opened.module.type opened.module.name editor.options = .ok text) :
    editor.isModified = .ok (decide (text ≠ opened.savedText)) := by
  have opens : editor.getOpen = .ok opened := getOpen_eq_ok.mpr current
  simp [isModified, contentText, opens, made, bind, Except.bind, pure, Except.pure]

theorem isModified_eq {σ : Type} {editor : Editor σ} {opened : OpenModule} (current : editor.current = some opened)
    (made : opened.session.contentText opened.module.type opened.module.name editor.options
      = .ok opened.savedText) : editor.isModified = .ok false :=
  (isModified_made current made).trans (by simp)

variable {σ : Type} [ModuleStore σ]

/-- A refused operation leaves the editor as it was. -/
def after {α : Type} (editor : Editor σ) : Except EditorError (α × Editor σ) → Editor σ
  | .ok (_, next) => next
  | .error _ => editor

/-- An edit of the open session, if there is one. -/
def change (editor : Editor σ) (edit : Session → Session) : Editor σ :=
  match editor.current with
  | some opened => editor.withSession (edit opened.session)
  | none => editor

def step (editor : Editor σ) : EditorStep → Editor σ
  | .createProject name => editor.after (editor.createProject name)
  | .createModule workspace name type => editor.after (editor.createModule workspace name type)
  | .load path => editor.after (editor.load path)
  | .edit edit => editor.change fun session => session.edit edit
  | .mutate edit => editor.change fun session => { session with graph := session.graph.mutate edit }
  | .flush => editor.change Session.settled
  | .save => editor.save.2

/-- The editors that a run reaches with an editor that has just been started on a store. -/
inductive Reaches (store : σ) (options : Code.Options) : Editor σ → Prop where
  | start : Reaches store options { store, options }
  | step {editor : Editor σ} (reached : Reaches store options editor) (step : EditorStep) :
      Reaches store options (editor.step step)

variable [LawfulStore σ] {editor editor' : Editor σ} {store : σ} {options : Code.Options}

/-- What every run keeps. -/
structure Whole (editor : Editor σ) : Prop where
  stocked : Stocked editor.store
  opened : ∀ {opened}, editor.current = some opened → Opened editor.store opened

theorem Whole.start (intact : Intact store) (empty : ∀ path, held store path = none) :
    Whole { store, options } where
  stocked := ⟨intact, fun here => nomatch (empty _).symm.trans here⟩
  opened := nofun

/-! Creating modules. -/

theorem Whole.create {type : ModuleType} {path : ModulePath} {made : String} (whole : editor.Whole)
    (known : type ≠ .unknown) (created : editor.create type path = .ok (made, editor')) :
    editor'.Whole := by
  unfold Editor.create at created
  split at created
  · cases created
  · simp only [bind_eq_ok, pure_eq_ok, fromStore_eq_ok, Prod.mk.injEq] at created
    obtain ⟨session, started, text, content, store, stored, -, rfl⟩ := created
    obtain ⟨intact, free, others⟩ := LawfulStore.create_ok whole.stocked.intact stored
    have written := (Session.Whole.starter started).written known content
    have keeps : Keeps editor.store store := by
      intro other type text here
      refine ⟨text, ?_⟩
      rw [others]
      split
      · next met =>
        cases free.symm.trans (met ▸ here)
      · exact here
    exact ⟨whole.stocked.overwrite intact written others, fun current => (whole.opened current).kept keeps⟩

theorem Whole.createProject {name made : String} (whole : editor.Whole)
    (created : editor.createProject name = .ok (made, editor')) : editor'.Whole :=
  whole.create (by decide : ModuleType.robot ≠ .unknown) created

theorem Whole.createModule {workspace name made : String} {type : ModuleType} (whole : editor.Whole)
    (created : editor.createModule workspace name type = .ok (made, editor')) : editor'.Whole := by
  simp only [Editor.createModule] at created
  split at created
  · exact absurd created throw_ne_ok
  · next movable =>
    obtain ⟨there, -, created⟩ := bind_eq_ok.mp created
    split at created
    · exact absurd created throw_ne_ok
    · refine whole.create (fun unknown => movable ?_) created
      simp [unknown]

/-! Saving. -/

omit [LawfulStore σ] in
/-- Saving is refused, or it stores the open module and the others may follow. -/
theorem save_cases (editor : Editor σ) : (∃ error, editor.save = (.error error, editor)) ∨
    ∃ opened text store, editor.current = some opened ∧
      opened.session.contentText opened.module.type opened.module.name editor.options = .ok text ∧
      ModuleStore.save editor.store opened.module.path text = .ok store ∧
      editor.save =
        let editor := { editor with store, current := some { opened with savedText := text } }
        if opened.module.type.exports then
          let (paths, store) := syncDependents editor.options store opened.module
          (paths, { editor with store })
        else (.ok [], editor) := by
  unfold save
  extract_lets stored
  cases ready : stored with
  | error error => exact .inl ⟨error, rfl⟩
  | ok answer =>
    obtain ⟨opened, text, store⟩ := answer
    simp only [stored, contentText, bind_eq_ok, getOpen_eq_ok, fromStore_eq_ok, pure_eq_ok,
      Prod.mk.injEq] at ready
    obtain ⟨_, ⟨own, current, made⟩, got, same, next, saved, rfl, rfl, rfl⟩ := ready
    obtain rfl : own = got := Option.some.inj (current.symm.trans same)
    exact .inr ⟨own, _, _, current, made, saved, rfl⟩

/-- A saved module is stored as its session shows it, and the modules that follow it leave it so. -/
theorem save_spec (whole : editor.Whole) : editor.save.2.Whole ∧
    ∀ paths, editor.save.1 = .ok paths → ∃ opened content, editor.current = some opened ∧
      opened.session.content opened.module.type opened.module.name editor.options = .ok content ∧
      held editor.save.2.store opened.module.path = some (opened.module.type, content.text) := by
  rcases save_cases editor with ⟨error, refused⟩ | ⟨own, text, next, current, made, saved, same⟩
  · rw [refused]
    exact ⟨whole, nofun⟩
  · obtain ⟨content, shown, rfl⟩ := map_eq_ok.mp made
    have known := whole.opened current
    have typed : own.module.type ≠ .unknown := by
      obtain ⟨_, here⟩ := known.holds
      obtain ⟨-, -, -, known, -⟩ := whole.stocked.written here
      exact known
    obtain ⟨stocked, keeps, others⟩ :=
      whole.stocked.save known.holds (known.session.written typed made) saved
    have here : held next own.module.path = some (own.module.type, content.text) := by
      rw [others, if_pos rfl]
    have reopened : Opened next { own with savedText := content.text } :=
      let kept := known.kept keeps
      ⟨kept.session, kept.holds, kept.path⟩
    rw [same]
    dsimp only
    split
    · obtain ⟨stocked', keeps', stays⟩ := syncDependents_spec editor.options stocked own.module
      refine ⟨⟨stocked', fun current => ?_⟩, fun paths _ => ⟨own, content, current, shown, ?_⟩⟩
      · cases current
        exact reopened.kept keeps'
      · exact stays.trans here
    · refine ⟨⟨stocked, fun current => ?_⟩, fun paths _ => ⟨own, content, current, shown, here⟩⟩
      cases current
      exact reopened

/-! Runs. -/

theorem Whole.after {α : Type} {answer : Except EditorError (α × Editor σ)} (whole : editor.Whole)
    (succeeds : ∀ a next, answer = .ok (a, next) → next.Whole) : (editor.after answer).Whole := by
  cases answer with
  | error error => exact whole
  | ok outcome => exact succeeds _ _ rfl

theorem Whole.load {path : String} {opened : OpenModule} (whole : editor.Whole)
    (loaded : editor.load path = .ok (opened, editor')) : editor'.Whole := by
  simp only [Editor.load, bind_eq_ok, pure_eq_ok, Prod.mk.injEq] at loaded
  obtain ⟨own, found, -, rfl⟩ := loaded
  refine ⟨whole.stocked, fun current => ?_⟩
  cases current
  exact openModule_opened whole.stocked found

theorem Whole.change {edit : Session → Session} (whole : editor.Whole)
    (keeps : ∀ session, session.Whole → (edit session).Whole) : (editor.change edit).Whole := by
  unfold Editor.change
  cases current : editor.current with
  | none => exact whole
  | some opened =>
    have known := whole.opened current
    refine ⟨whole.stocked, fun {edited} after => ?_⟩
    simp only [withSession, current, Option.map_some, Option.some.injEq] at after
    subst after
    exact ⟨keeps _ known.session, known.holds, known.path⟩

theorem Whole.step (whole : editor.Whole) (step : EditorStep) : (editor.step step).Whole := by
  cases step with
  | createProject name => exact whole.after fun _ _ created => whole.createProject created
  | createModule workspace name type => exact whole.after fun _ _ created => whole.createModule created
  | load path => exact whole.after fun _ _ loaded => whole.load loaded
  | edit edit => exact whole.change fun _ session => session.edit edit
  | mutate edit => exact whole.change fun _ session => session.mutate edit
  | flush => exact whole.change fun _ session => session.settled
  | save => exact (save_spec whole).1

theorem Reaches.whole (reached : Reaches store options editor) (intact : Intact store)
    (empty : ∀ path, held store path = none) : editor.Whole := by
  induction reached with
  | start => exact .start intact empty
  | step _ step ih => exact ih.step step

end Editor
end RobotBlocks
