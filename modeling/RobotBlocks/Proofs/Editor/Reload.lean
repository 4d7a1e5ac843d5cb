import RobotBlocks.Proofs.Editor.Run
import RobotBlocks.Proofs.Store.Database
import RobotBlocks.Proofs.Store.Shelf

/-! Loading what was saved. Saving checks nothing, loading does: whether a saved module can be
loaded again depends on what its value sockets hold, on its ids, on the depth of its document and
on the robot of its workspace. -/
namespace RobotBlocks.Editor

open Json Decoder LawfulStore

variable {σ : Type} [ModuleStore σ] {store : σ} {options : Code.Options} {editor : Editor σ}

theorem Reaches.foldl_step (reached : Reaches store options editor) (steps : List EditorStep) :
    Reaches store options (steps.foldl Editor.step editor) := by
  induction steps generalizing editor with
  | nil => exact reached
  | cons first rest ih => exact ih (reached.step first)

theorem foldl_step_load {path : String} {opened : OpenModule} {before later : List EditorStep}
    (found : openModule (before.foldl step editor).store path = .ok opened) :
    (before ++ .load path :: later).foldl step editor
      = later.foldl step { before.foldl step editor with current := some opened } := by
  rw [List.foldl_append, List.foldl_cons]
  simp only [step, Editor.load, found]
  rfl

theorem load_ok_iff {path : String} : (∃ answer, editor.load path = .ok answer) ↔
    ∃ opened, openModule editor.store path = .ok opened := by
  simp only [Editor.load, bind_eq_ok, pure_eq_ok]
  constructor
  · rintro ⟨_, opened, found, -⟩
    exact ⟨opened, found⟩
  · rintro ⟨opened, found⟩
    exact ⟨_, opened, found, rfl⟩

variable [LawfulStore σ]

/-- What loading asks of a saved module. -/
structure Loadable (store : σ) (opened : OpenModule) (content : ModuleContent) : Prop where
  /-- No block in a value socket has another one below it. -/
  single : opened.session.graph.SingleValues
  /-- A fresh id could follow every id. -/
  early : ∀ id, opened.session.graph.contains id = true → id.number < BlockId.last.number
  /-- The document nests no deeper than a reader goes, and its numbers have 32 bits. -/
  shallow : fits levels content.encode = true
  /-- The robot of the workspace can be read, unless it is the module. -/
  robot : opened.module.type ≠ .robot → ∀ type text,
    held store (ModulePath.robot opened.module.workspace).text = some (type, text) →
      ∃ content, ModuleContent.parse text = .ok content

/-- After any run on a store that only the editor writes, a module that was saved can be loaded
again exactly when it is loadable. -/
theorem Reaches.reload_iff (reached : Reaches store options editor) (intact : Intact store)
    (empty : ∀ path, held store path = none) {paths : List String}
    (saved : editor.save.1 = .ok paths) : ∃ opened content,
      editor.current = some opened ∧
      opened.session.content opened.module.type opened.module.name editor.options = .ok content ∧
      ((∃ answer, editor.save.2.load opened.module.path = .ok answer) ↔
        Loadable editor.save.2.store opened content) := by
  have whole := reached.whole intact empty
  obtain ⟨⟨stocked, -⟩, stores⟩ := save_spec whole
  obtain ⟨opened, content, current, shown, here⟩ := stores paths saved
  have known := whole.opened current
  have typed : content.type ≠ .unknown := by
    obtain ⟨stored, -, same, typed, -⟩ := stocked.written here
    exact (Session.content_eq_ok shown).1.symm ▸ typed
  refine ⟨opened, content, current, shown, load_ok_iff.trans ?_⟩
  rw [openModule_ok_iff stocked.intact known.path here (known.session.content_distinct shown) typed,
    (Session.content_eq_ok shown).2, known.session.graph.sound.loads_iff]
  constructor
  · rintro ⟨shallow, ⟨single, early⟩, robot⟩
    exact ⟨single, early, shallow, robot⟩
  · rintro ⟨single, early, shallow, robot⟩
    exact ⟨shallow, ⟨single, early⟩, robot⟩

/-- A module is opened beside the robot of its workspace when both are readable. -/
theorem openModule_ok {path : String} {parts : ModulePath} {entry : ModuleEntry}
    {entries : List ModuleEntry} {content robot : ModuleContent} {session : Session}
    (intact : Intact store) (named : ModulePath.ofText? path = some parts)
    (here : held store path = some (entry.type, content.text))
    (beside : held store (ModulePath.robot parts.workspace).text = some (.robot, robot.text))
    (listed : ModuleStore.entries store = .ok entries)
    (found : entries.find? (fun entry => entry.path = path) = some entry)
    (other : entry.type ≠ .robot) (parsed : ModuleContent.parse content.text = .ok content)
    (readable : ModuleContent.parse robot.text = .ok robot)
    (opens : openSession store ⟨path, entry.type, parts.module, parts.workspace, entry.modified⟩
      content (some robot) = .ok session) :
    openModule store path = .ok
      { module := ⟨path, entry.type, parts.module, parts.workspace, entry.modified⟩
        session, savedText := content.text, robot := some robot } := by
  have read : readRobot entry.type (some robot.text) = .ok (some robot) := by
    rw [readRobot, if_neg other, parseContent, readable]
    rfl
  rw [openModule_eq intact named here listed found, beside]
  exact openFound_eq_ok.mpr ⟨content, some robot, session, parsed, read, opens, rfl⟩

/-- A block connected below the argument of a call is saved and cannot be loaded again. -/
theorem reload_iff_below_argument :
    let creations : List EditorStep := [.createProject "A", .createModule "A" "M" .opMode]
    let edits : List EditorStep :=
      [.edit (.create .methodCall (.call { name := "f", args := [⟨"x", none⟩] })),
        .edit (.create .methodCall (.call {})), .edit (.create .methodCall (.call {})),
        .edit (.connectSocket ⟨1⟩ (Socket.arg 0) ⟨2⟩), .edit (.connectNext ⟨2⟩ ⟨3⟩)]
    let editor := (creations ++ .load "A/M.blk" :: edits).foldl step ({ store := {} } : Editor Shelf)
    editor.save.1 = .ok [] ∧ ¬ ∃ answer, editor.save.2.load "A/M.blk" = .ok answer := by
  intro creations edits editor
  -- the texts are read through their contents, which spares running the reader
  let robot : ModuleContent :=
    { type := .robot, blocks := ⟨[[.node ⟨0⟩ .componentHolder [] .none []]]⟩ }
  let content : ModuleContent :=
    { type := .opMode
      blocks := ⟨[[.node ⟨0⟩ .opModeDetails [("TYPE", "Teleop"), ("ENABLED", "TRUE"), ("NAME", "M"),
        ("GROUP", "")] .none []]]⟩
      opMode := some { kind := .teleop, name := "M", group := "", enabled := true } }
  let created := creations.foldl step ({ store := {} } : Editor Shelf)
  let session := ((Session.load content.blocks (scopeOf (some robot) []) .standard).toOption.getD {})
  let opened : OpenModule :=
    { module := ⟨"A/M.blk", .opMode, "M", "A", 0⟩, session, savedText := content.text, robot := some robot }
  have fresh : Reaches ({} : Shelf) {} { store := {} } := .start
  have answers : Intact ({} : Shelf) := ⟨rfl, .nil⟩
  have intact : Intact created.store :=
    ((fresh.foldl_step creations).whole answers fun _ => rfl).stocked.intact
  have parsed : ModuleContent.parse content.text = .ok content :=
    (ModuleContent.parse_text (Forest.distinct_single (by decide)) (by decide)).trans
      (if_pos (by decide +kernel))
  have readable : ModuleContent.parse robot.text = .ok robot :=
    (ModuleContent.parse_text (Forest.distinct_single (by decide)) (by decide)).trans
      (if_pos (by decide +kernel))
  have named : ModulePath.ofText? "A/M.blk" = some ⟨"A", "M"⟩ := by decide +kernel
  have listed : created.store.list.find? (fun entry => entry.path = "A/M.blk")
      = some ⟨"A/M.blk", .opMode, 0⟩ := by decide +kernel
  have opens : openSession created.store ⟨"A/M.blk", .opMode, "M", "A", 0⟩ content (some robot)
      = .ok session := by
    have alone : fetchMechanisms created.store "A" "A/M.blk" = .ok [] := rfl
    rw [openSession, show fetchMechanisms created.store _ _ = _ from alone]
    rfl
  have found : openModule created.store "A/M.blk" = .ok opened :=
    openModule_ok intact named rfl rfl rfl listed (by decide) parsed readable opens
  have same : editor = edits.foldl step { created with current := some opened } :=
    foldl_step_load found
  have saved : editor.save.1 = .ok [] := by
    rw [same]
    decide +kernel
  have shown : editor.current.map (fun opened => (opened.module.path, opened.session.graph.next? ⟨2⟩,
      opened.session.graph.parentLink? ⟨2⟩,
      (opened.session.graph.block? ⟨1⟩).bind (·.socket? (Socket.arg 0))))
        = some ("A/M.blk", some ⟨3⟩, some (⟨1⟩, .socket (Socket.arg 0)), some ⟨Socket.arg 0, .value⟩) := by
    rw [same]
    decide +kernel
  have reached : Reaches ({} : Shelf) {} editor := fresh.foldl_step _
  clear_value editor
  obtain ⟨last, stored, current, -, reload⟩ := reached.reload_iff answers (fun _ => rfl) saved
  simp only [current, Option.map_some, Option.some.injEq, Prod.mk.injEq] at shown
  obtain ⟨path, next, link, declared⟩ := shown
  obtain ⟨owner, there, socket⟩ := Option.bind_eq_some_iff.mp declared
  refine ⟨saved, fun loads => ?_⟩
  rw [← path, reload] at loads
  cases next.symm.trans (loads.single link there socket)

end RobotBlocks.Editor
