import RobotBlocks.Proofs.Editor.OnePass

/-! What can be opened after a robot or a mechanism was saved, and that it has nothing to save then. The
round over the other modules checks as little as saving does: it may write a robot that nests too deep to
be read. And it makes up for no text that was stored for a module of another type: what such a text hides
comes to light only when the round is past the modules that need it. -/
namespace RobotBlocks

open Json Decoder LawfulStore

namespace Editor

variable {σ : Type} [ModuleStore σ] [KeyedStore σ] {store : σ} {text : String} {options : Code.Options}
  {paths : List String}

variable {start : σ} {editor : Editor σ} {opened : OpenModule}

omit [KeyedStore σ] in
theorem load_eq_ok {path : String} {next : Editor σ} : editor.load path = .ok (opened, next) ↔
    openModule editor.store path = .ok opened ∧ next = { editor with current := some opened } := by
  simp only [load, bind_eq_ok, pure_eq_ok, Prod.mk.injEq]
  constructor
  · rintro ⟨own, found, rfl, rfl⟩
    exact ⟨found, rfl⟩
  · rintro ⟨found, rfl⟩
    exact ⟨opened, found, rfl, rfl⟩

omit [KeyedStore σ] in
/-- Edits change the open session alone. -/
theorem foldl_step_edit (edits : List SessionEdit) (editor : Editor σ) :
    (edits.map EditorStep.edit).foldl step editor = editor.change fun s => edits.foldl Session.edit s := by
  induction edits generalizing editor with
  | nil =>
    obtain ⟨store, options, current⟩ := editor
    cases current <;> rfl
  | cons edit edits ih =>
    rw [List.map_cons, List.foldl_cons, ih]
    obtain ⟨store, options, current⟩ := editor
    cases current <;> rfl

/-- What a save of a robot or a mechanism does if it succeeds: it writes the module and takes the others
through a round. -/
theorem save_round (authors : editor.Authors) (current : editor.current = some opened)
    (exports : opened.module.type.exports = true) (saved : editor.save.1 = .ok paths) :
    ∃ store entries, Authored store ∧ ModuleStore.entries store = .ok entries ∧
      (∀ path, path ≠ opened.module.path → held store path = held editor.store path) ∧
      editor.options.isValid = true ∧ editor.save.2.options = editor.options ∧
      Follows editor.options (robotOf store opened.module.workspace) store (othersOf entries opened.module)
        (.ok paths) editor.save.2.store := by
  rcases save_cases editor with ⟨error, refused⟩ | ⟨own, text, store, same, made, wrote, answer⟩
  · cases saved.symm.trans (congrArg Prod.fst refused)
  · cases current.symm.trans same
    have stored : Authored store := authors.stored current made wrote
    obtain ⟨intact, kind, old, there, others⟩ := LawfulStore.save_ok authors.authored.intact wrote
    obtain ⟨entries, listed, -⟩ := LawfulStore.entries_eq stored.intact
    dsimp only at answer
    rw [if_pos exports] at answer
    have synced : (syncDependents editor.options store opened.module).1 = .ok paths :=
      (congrArg Prod.fst answer).symm.trans saved
    have round := syncDependents_eq editor.options stored.intact listed
      (syncDependents_readable stored.intact synced)
    have valid : editor.options.isValid = true := Session.contentText_valid made
    have follows := othersOf_follows valid stored.intact listed (robotOf store opened.module.workspace)
      opened.module
    rw [← round, synced] at follows
    refine ⟨store, entries, stored, listed, fun path other => ?_, valid, ?_, ?_⟩
    · rw [others, if_neg other]
    · rw [answer]
    · rw [answer]
      exact follows

/-! Stored sessions that can be read back, and a workspace of them. -/

/-- The session is read back from the text that it is stored as. -/
structure Legible (s : Session) (type : ModuleType) : Prop where
  whole : s.Whole
  known : type ≠ .unknown
  fits : fits levels (s.document type).encode = true

theorem Legible.parse {s : Session} {type : ModuleType} (legible : Legible s type) :
    ModuleContent.parse (s.document type).text = .ok (s.document type) := by
  rw [legible.whole.parse_text legible.known, if_pos legible.fits]

/-- A module that stores the same against any scope stays as it is. -/
theorem Follows.keeps {modules : List Module} {robot : Option ModuleContent} {final : σ} {module : Module}
    {s : Session} (follows : Follows options robot store modules (.ok paths) final) (member : module ∈ modules)
    (legible : Legible s module.type)
    (here : held store module.path = some (module.type, (s.document module.type).text))
    (still : ∀ scope again, Session.load s.toForest scope .standard = .ok again →
      again.document module.type = s.document module.type) :
    held final module.path = some (module.type, (s.document module.type).text) := by
  obtain ⟨there, text, outcome, intact, -, before, made, after⟩ := follows.all member
  obtain ⟨-, rfl⟩ := Prod.mk.inj (Option.some.inj (here.symm.trans before))
  rw [after]
  cases outcome with
  | none => rfl
  | some newText =>
    obtain ⟨content, mechanisms, again, parsed, -, loaded, rfl⟩ := refreshed_some intact made
    obtain rfl := Except.ok.inj (legible.parse.symm.trans parsed)
    rw [still _ _ loaded, Option.getD_some]

variable {r m x s : Session}

/-- A workspace with a robot, an opmode and a mechanism. -/
def workshop (robot opMode mechanism : Session) : Shelf where
  modules := [("A/A.blk", ⟨.robot, (robot.document .robot).text, 0⟩),
    ("A/M.blk", ⟨.opMode, (opMode.document .opMode).text, 0⟩),
    ("A/X.blk", ⟨.mechanism, (mechanism.document .mechanism).text, 0⟩)]

def workshopEntries : List ModuleEntry :=
  [⟨"A/A.blk", .robot, 0⟩, ⟨"A/M.blk", .opMode, 0⟩, ⟨"A/X.blk", .mechanism, 0⟩]

theorem workshop_lists (r m x : Session) : ModuleStore.entries (workshop r m x) = .ok workshopEntries := rfl

theorem workshop_intact (r m x : Session) : Intact (workshop r m x) := by
  have ascending : ((workshop r m x).modules.map Prod.fst).Pairwise (· < ·) :=
    show ["A/A.blk", "A/M.blk", "A/X.blk"].Pairwise (· < ·) by decide
  exact ⟨rfl, List.pairwise_map.mp ascending⟩

theorem workshop_holds (r m x : Session) :
    held (workshop r m x) "A/A.blk" = some (.robot, (r.document .robot).text) ∧
      held (workshop r m x) "A/M.blk" = some (.opMode, (m.document .opMode).text) ∧
      held (workshop r m x) "A/X.blk" = some (.mechanism, (x.document .mechanism).text) :=
  ⟨rfl, rfl, rfl⟩

/-- The texts of a workshop are read as its sessions. -/
theorem workshop_parse {path text : String} {type : ModuleType} {content : ModuleContent}
    (robot : Legible r .robot) (opMode : Legible m .opMode) (mechanism : Legible x .mechanism)
    (here : held (workshop r m x) path = some (type, text)) (parsed : ModuleContent.parse text = .ok content) :
    content = r.document .robot ∨ content = m.document .opMode ∨ content = x.document .mechanism := by
  change ((workshop r m x).modules.lookup path).map (fun module => (module.type, module.text))
    = some (type, text) at here
  simp only [workshop, Shelf.lookup_cons] at here
  split at here
  · cases here
    exact .inl (Except.ok.inj (parsed.symm.trans robot.parse))
  · split at here
    · cases here
      exact .inr (.inl (Except.ok.inj (parsed.symm.trans opMode.parse)))
    · split at here
      · cases here
        exact .inr (.inr (Except.ok.inj (parsed.symm.trans mechanism.parse)))
      · cases here

theorem robotOf_workshop (robot : Legible r .robot) (m x : Session) :
    robotOf (workshop r m x) "A" = some (r.document .robot) := by
  have path : (ModulePath.robot "A").text = "A/A.blk" := rfl
  rw [robotOf, path, (workshop_holds r m x).1, Option.bind_some, robot.parse]
  rfl

/-- Saving the mechanism gives a workshop with another one. -/
theorem workshop_saves (r m x s : Session) : ModuleStore.save (workshop r m x) "A/X.blk"
    (s.document .mechanism).text = .ok (workshop r m s) := by
  have first : ¬ "A/X.blk" < "A/A.blk" := by decide
  have second : ¬ "A/X.blk" < "A/M.blk" := by decide
  change Except.ok (Shelf.put _ _ _) = _
  simp [Shelf.put, Shelf.insertModule, workshop, first, second]

/-- The mechanism of a workshop, opened with some session. -/
def workshopOpened (r x s : Session) : OpenModule where
  module := ⟨"A/X.blk", .mechanism, "X", "A", 0⟩
  session := s
  savedText := (x.document .mechanism).text
  robot := some (r.document .robot)

def workshopEditor (r m x s : Session) : Editor Shelf where
  store := workshop r m x
  current := some (workshopOpened r x s)

theorem workshop_change (r m x s : Session) (edit : Session → Session) :
    (workshopEditor r m x s).change edit = workshopEditor r m x (edit s) := rfl

theorem workshop_load (robot : Legible r .robot) (mechanism : Legible x .mechanism)
    (loaded : Session.load x.toForest (scopeOf (some (r.document .robot)) []) .standard = .ok s)
    (m : Session) (current : Option OpenModule) :
    ({ store := workshop r m x, current } : Editor Shelf).step (.load "A/X.blk")
      = workshopEditor r m x s := by
  have intact := workshop_intact r m x
  have alone : mechanismsOf workshopEntries "A" "A/X.blk" = [] := rfl
  have fetched : fetchMechanisms (workshop r m x) "A" "A/X.blk" = .ok [] := by
    rw [fetchMechanisms_eq intact (workshop_lists r m x), alone]
    rfl
  have named : ModulePath.ofText? "A/X.blk" = some ⟨"A", "X"⟩ := rfl
  have listed : workshopEntries.find? (fun entry => entry.path = "A/X.blk")
      = some ⟨"A/X.blk", .mechanism, 0⟩ := rfl
  obtain ⟨beside, -, here⟩ := workshop_holds r m x
  have found := openModule_ok intact named here beside (workshop_lists r m x) listed (by decide)
    mechanism.parse robot.parse (openSession_ok fetched loaded)
  simp only [step, Editor.load, found]
  rfl

/-- What follows when the mechanism is saved. -/
def workshopOthers : List Module := [⟨"A/A.blk", .robot, "A", "A", 0⟩, ⟨"A/M.blk", .opMode, "M", "A", 0⟩]

/-- Saving the mechanism of a workshop takes its other modules through a round that succeeds. -/
theorem workshop_save (x : Session) (robot : Legible r .robot) (opMode : Legible m .opMode)
    (mechanism : Legible s .mechanism)
    (rebuilt : (∃ g, Graph.ofForest r.toForest = .ok g) ∧ ∃ g, Graph.ofForest m.toForest = .ok g) :
    ∃ round, round = syncEach {} (some (r.document .robot)) (workshop r m s) workshopOthers ∧
      ∃ paths, (workshopEditor r m x s).save.1 = .ok paths ∧
        (workshopEditor r m x s).save.2.store = round.2 ∧
        Follows {} (some (r.document .robot)) (workshop r m s) workshopOthers (.ok paths) round.2 := by
  obtain ⟨robot_held, opMode_held, -⟩ := workshop_holds r m s
  have stored := workshop_intact r m s
  have current : (workshopEditor r m x s).current = some (workshopOpened r x s) := rfl
  have plain : (workshopEditor r m x s).options = {} := rfl
  have own : robotOf (workshop r m s) (workshopOpened r x s).module.workspace = some (r.document .robot) :=
    robotOf_workshop robot m s
  have others : othersOf workshopEntries (workshopOpened r x s).module = workshopOthers := by
    change othersOf workshopEntries ⟨"A/X.blk", .mechanism, "X", "A", 0⟩ = _
    rfl
  have valid : ({} : Code.Options).isValid = true := by decide
  have made : (workshopEditor r m x s).contentText = .ok (s.document .mechanism).text :=
    Session.document_contentText mechanism.whole.graph.sound valid mechanism.known "X"
  have readable : ∀ {type text}, held (workshop r m s)
      (ModulePath.robot (workshopOpened r x s).module.workspace).text = some (type, text) →
        ∃ content, ModuleContent.parse text = .ok content := by
    intro type text here
    rw [robotOf, here, Option.bind_some, toOption_eq_some] at own
    exact ⟨_, own⟩
  have saves := save_eq stored current rfl made (workshop_saves r m x s) (workshop_lists r m s) readable
  have follows := othersOf_follows valid stored (workshop_lists r m s) (some (r.document .robot))
    (workshopOpened r x s).module
  rw [others] at follows
  simp only [own, others, plain] at saves
  -- The round is named, so that it is not evaluated.
  generalize syncEach {} (some (r.document .robot)) (workshop r m s) workshopOthers = round
    at follows saves
  have succeeds := follows.answered fun module member => ?_
  · rw [succeeds] at follows
    exact ⟨round, rfl, _, (congrArg Prod.fst saves).trans succeeds,
      congrArg (fun outcome => outcome.2.store) saves, follows⟩
  rintro ⟨text, content, here, parsed, refused⟩
  simp only [workshopOthers, List.mem_cons, List.not_mem_nil, or_false] at member
  rcases member with rfl | rfl
  · obtain ⟨-, rfl⟩ := Prod.mk.inj (Option.some.inj (robot_held.symm.trans here))
    obtain rfl := Except.ok.inj (robot.parse.symm.trans parsed)
    obtain ⟨g, loaded⟩ := rebuilt.1
    exact refused.elim (fun lost => lost g loaded) robot.known
  · obtain ⟨-, rfl⟩ := Prod.mk.inj (Option.some.inj (opMode_held.symm.trans here))
    obtain rfl := Except.ok.inj (opMode.parse.symm.trans parsed)
    obtain ⟨g, loaded⟩ := rebuilt.2
    exact refused.elim (fun lost => lost g loaded) opMode.known

/-- The round over a workshop takes the robot first, against the mechanism as it was saved. -/
theorem workshop_robot (robot : Legible r .robot) (mechanism : Legible x .mechanism)
    (loaded : Session.load r.toForest (scopeOf none [("X", x.document .mechanism)]) .standard = .ok s)
    (m : Session) (known : Option ModuleContent) :
    held (syncEach {} known (workshop r m x) workshopOthers).2 "A/A.blk"
      = some (.robot, (s.document .robot).text) := by
  obtain ⟨robot_held, opMode_held, mechanism_held⟩ := workshop_holds r m x
  have intact := workshop_intact r m x
  have beside : mechanismsOf workshopEntries "A" "A/A.blk" = [⟨"A/X.blk", .mechanism, "X", "A", 0⟩] := by
    rfl
  have fetched : fetchMechanisms (workshop r m x) "A" "A/A.blk" = .ok [("X", x.document .mechanism)] := by
    rw [fetchMechanisms_eq intact (workshop_lists r m x), beside]
    simp only [List.filterMap_cons, List.filterMap_nil, readMechanism, mechanism_held, Option.bind_some,
      mechanism.parse]
    rfl
  let first : Module := ⟨"A/A.blk", .robot, "A", "A", 0⟩
  let last : Module := ⟨"A/M.blk", .opMode, "M", "A", 0⟩
  have valid : ({} : Code.Options).isValid = true := by decide
  have made : refreshed {} (workshop r m x) first (r.document .robot).text known
      = .ok (some (s.document .robot).text) :=
    refreshed_load valid robot.known robot.parse fetched loaded
  obtain ⟨next, synced, intact', others⟩ := syncModule_follows intact robot_held made
  have holds : Holds next last := ⟨_, (others "A/M.blk").trans opMode_held⟩
  have follows : Follows {} known next [last] _ (syncEach {} known next [last]).2 :=
    syncEach_follows known valid intact' (List.forall_mem_singleton.mpr holds) (List.nodup_singleton _)
  have rest : (syncEach {} known (workshop r m x) [first, last]).2 = (syncEach {} known next [last]).2 := by
    rw [syncEach, synced]
  change held (syncEach {} known (workshop r m x) [first, last]).2 "A/A.blk" = _
  rw [rest, follows.frame "A/A.blk" (by simp [last]), others]
  rfl

/-! Modules as they are created. -/

/-- The session of a new robot or mechanism. -/
def newHolder : Session := (Session.createBlock {} .componentHolder .none).2

/-- The session of a new opmode. -/
def newDetails : Session :=
  (Session.createBlock {} .opModeDetails .none).2.edit (.setField ⟨0⟩ Field.name "M")

theorem legible_newHolder {type : ModuleType} (known : type ≠ .unknown) : Legible newHolder type :=
  ⟨Session.Whole.new.edit (.create .componentHolder .none), known, by cases type <;> rfl⟩

theorem legible_newDetails : Legible newDetails .opMode :=
  ⟨(Session.Whole.new.edit (.create .opModeDetails .none)).edit _, by decide, rfl⟩

theorem newHolder_still (type : ModuleType) (scope : Scope) {again : Session}
    (loaded : Session.load newHolder.toForest scope .standard = .ok again) :
    again.document type = newHolder.document type := by
  cases loaded
  rfl

theorem newDetails_still (type : ModuleType) (scope : Scope) {again : Session}
    (loaded : Session.load newDetails.toForest scope .standard = .ok again) :
    again.document type = newDetails.document type := by
  cases loaded
  rfl

/-! A workspace with a robot alone. -/

/-- A workspace that has just its robot. -/
def lone (robot : Session) : Shelf where
  modules := [("A/A.blk", ⟨.robot, (robot.document .robot).text, 0⟩)]

omit [KeyedStore σ] in
/-- A module is created with the text of its first session. -/
theorem create_new {type : ModuleType} {path : ModulePath} {editor : Editor σ} {next : σ}
    (plain : editor.options = {})
    (named : [path.workspace, path.module].find? (fun name => !isValidName name) = none)
    (started : Session.starter type path.module = .ok s) (legible : Legible s type)
    (created : ModuleStore.create editor.store type path.text (s.document type).text = .ok next) :
    editor.create type path = .ok (path.text, { editor with store := next }) := by
  have made : s.contentText type path.module editor.options = .ok (s.document type).text :=
    Session.document_contentText legible.whole.graph.sound (by rw [plain]; decide) legible.known path.module
  simp only [create, named, started, made, created, fromStore_ok, bind, Except.bind, pure, Except.pure]

omit [KeyedStore σ] in
theorem step_createModule {workspace name made : String} {type : ModuleType} {editor next : Editor σ}
    (movable : (type = .robot || type = .unknown) = false)
    (there : ModuleStore.contains editor.store (ModulePath.robot workspace).text = .ok true)
    (created : editor.create type ⟨workspace, name⟩ = .ok (made, next)) :
    editor.step (.createModule workspace name type) = next := by
  simp only [step, createModule, movable, there, created, fromStore_ok, bind, Except.bind]
  rfl

theorem lone_created (current : Option OpenModule) :
    ({ store := {}, current } : Editor Shelf).step (.createProject "A") = { store := lone newHolder, current } := by
  let editor : Editor Shelf := { store := {}, current }
  have legible : Legible newHolder .robot := legible_newHolder (by decide)
  have named : ["A", "A"].find? (fun name => !isValidName name) = none := rfl
  have text : (ModulePath.robot "A").text = "A/A.blk" := rfl
  have stored : ModuleStore.create editor.store .robot (ModulePath.robot "A").text (newHolder.document .robot).text
      = .ok (lone newHolder) := by rw [text]; rfl
  have created : editor.createProject "A" = _ := create_new rfl named rfl legible stored
  change editor.after (editor.createProject "A") = _
  rw [created]
  rfl

theorem lone_furnished (r : Session) (current : Option OpenModule) :
    (({ store := lone r, current } : Editor Shelf).step (.createModule "A" "M" .opMode)).step
      (.createModule "A" "X" .mechanism) = { store := workshop r newDetails newHolder, current } := by
  let editor : Editor Shelf := { store := lone r, current }
  let between : Editor Shelf :=
    { store := { modules := [("A/A.blk", ⟨.robot, (r.document .robot).text, 0⟩),
        ("A/M.blk", ⟨.opMode, (newDetails.document .opMode).text, 0⟩)] }, current }
  have own : (ModulePath.robot "A").text = "A/A.blk" := rfl
  have opMode : ModulePath.text ⟨"A", "M"⟩ = "A/M.blk" := rfl
  have mechanism : ModulePath.text ⟨"A", "X"⟩ = "A/X.blk" := rfl
  have first : editor.create .opMode ⟨"A", "M"⟩ = .ok (_, between) :=
    create_new rfl rfl rfl legible_newDetails (by rw [opMode]; rfl)
  have second : between.create .mechanism ⟨"A", "X"⟩
      = .ok (_, { store := workshop r newDetails newHolder, current }) :=
    create_new rfl rfl rfl (legible_newHolder (by decide)) (by rw [mechanism]; rfl)
  have furnished : editor.step (.createModule "A" "M" .opMode) = between :=
    step_createModule (by decide) (by rw [own]; rfl) first
  change (editor.step _).step _ = _
  rw [furnished]
  exact step_createModule (by decide) (by rw [own]; rfl) second

/-- The robot that is alone in its workspace, opened with some session. -/
def loneOpened (r s : Session) : OpenModule where
  module := ⟨"A/A.blk", .robot, "A", "A", 0⟩
  session := s
  savedText := (r.document .robot).text
  robot := none

theorem lone_intact (r : Session) : Intact (lone r) := ⟨rfl, List.pairwise_singleton _ _⟩

/-- A robot opens by itself where the workspace has no mechanisms. -/
theorem openModule_lone {store : Shelf} {entries : List ModuleEntry} (intact : Intact store)
    (listed : ModuleStore.entries store = .ok entries)
    (first : entries.find? (fun entry => entry.path = "A/A.blk") = some ⟨"A/A.blk", .robot, 0⟩)
    (alone : mechanismsOf entries "A" "A/A.blk" = [])
    (here : held store "A/A.blk" = some (.robot, (r.document .robot).text)) (robot : Legible r .robot)
    (loaded : Session.load r.toForest {} .standard = .ok s) :
    openModule store "A/A.blk" = .ok (loneOpened r s) := by
  have fetched : fetchMechanisms store "A" "A/A.blk" = .ok [] := by
    rw [fetchMechanisms_eq intact listed, alone]
    rfl
  have named : ModulePath.ofText? "A/A.blk" = some ⟨"A", "A"⟩ := rfl
  refine (openModule_eq intact named here listed first).trans
    (openFound_eq_ok.mpr ⟨_, none, s, robot.parse, ?_, openSession_ok fetched loaded, rfl⟩)
  cases (held store (ModulePath.robot "A").text) with
  | none => rfl
  | some _ => rfl

theorem lone_load (robot : Legible r .robot) (loaded : Session.load r.toForest {} .standard = .ok s)
    (current : Option OpenModule) : ({ store := lone r, current } : Editor Shelf).step (.load "A/A.blk")
      = { store := lone r, current := some (loneOpened r s) } := by
  have listed : ModuleStore.entries (lone r) = .ok [⟨"A/A.blk", .robot, 0⟩] := rfl
  have found : openModule (lone r) "A/A.blk" = .ok (loneOpened r s) :=
    openModule_lone (lone_intact r) listed rfl rfl rfl robot loaded
  simp only [step, Editor.load, found]
  rfl

theorem lone_save (robot : Legible s .robot) (r : Session) :
    ({ store := lone r, current := some (loneOpened r s) } : Editor Shelf).step .save
      = { store := lone s, current := some { loneOpened r s with savedText := (s.document .robot).text } } := by
  let editor : Editor Shelf := { store := lone r, current := some (loneOpened r s) }
  have intact := lone_intact s
  have listed : ModuleStore.entries (lone s) = .ok [⟨"A/A.blk", .robot, 0⟩] := rfl
  have made : editor.contentText = .ok (s.document .robot).text :=
    Session.document_contentText robot.whole.graph.sound (show ({} : Code.Options).isValid = true by decide)
      robot.known "A"
  have stored : ModuleStore.save editor.store (loneOpened r s).module.path (s.document .robot).text
      = .ok (lone s) := by
    change Except.ok (Shelf.put _ _ _) = _
    simp [Shelf.put, Shelf.insertModule, lone, loneOpened, editor]
  have path : (ModulePath.robot (loneOpened r s).module.workspace).text = "A/A.blk" := by
    change (ModulePath.robot "A").text = "A/A.blk"
    rfl
  have readable : ∀ {type text}, held (lone s) (ModulePath.robot (loneOpened r s).module.workspace).text
      = some (type, text) → ∃ content, ModuleContent.parse text = .ok content := by
    intro type text here
    rw [path] at here
    cases here
    exact ⟨_, robot.parse⟩
  have none : othersOf [⟨"A/A.blk", .robot, 0⟩] (loneOpened r s).module = [] := by
    change othersOf _ ⟨"A/A.blk", .robot, "A", "A", 0⟩ = _
    rfl
  have saves := save_eq intact rfl rfl made stored listed readable
  rw [none] at saves
  change editor.save.2 = _
  rw [saves]
  rfl

theorem lone_change (r s : Session) (edit : Session → Session) :
    ({ store := lone r, current := some (loneOpened r s) } : Editor Shelf).change edit
      = { store := lone r, current := some (loneOpened r (edit s)) } := rfl

/-! Opening after saving. -/

/-- After a robot or a mechanism was saved, every other module of its workspace is opened if its text
and that of its robot are readable, and has nothing to save then. -/
theorem save_leaves_unmodified (authored : Authored start) (reached : Reaches start options editor)
    (current : editor.current = some opened) (exports : opened.module.type.exports = true)
    (moderate : ∀ {path type text content}, path ≠ opened.module.path →
      held editor.store path = some (type, text) → ModuleContent.parse text = .ok content → content.Moderate)
    (saved : editor.save.1 = .ok paths) {path text : String} {type : ModuleType} {parts : ModulePath}
    (other : path ≠ opened.module.path) (named : ModulePath.ofText? path = some parts)
    (beside : parts.workspace = opened.module.workspace)
    (here : held editor.save.2.store path = some (type, text)) :
    ((∃ answer, editor.save.2.load path = .ok answer) ↔ (∃ content, ModuleContent.parse text = .ok content) ∧
      (type ≠ .robot → ∀ type text, held editor.save.2.store (ModulePath.robot parts.workspace).text
        = some (type, text) → ∃ robot, ModuleContent.parse text = .ok robot)) ∧
    ∀ opened next, editor.save.2.load path = .ok (opened, next) → next.isModified = .ok false := by
  have authors := reached.authors authored
  have left := authors.save.authored
  obtain ⟨store, entries, stored, listed, elsewhere, valid, kept, follows⟩ :=
    save_round authors current exports saved
  generalize editor.save.2 = last at left kept follows here ⊢
  obtain ⟨old, before⟩ := follows.kept here
  obtain ⟨modified, member⟩ := mem_othersOf stored.intact listed before named other beside
  have moderate : AllModerate store (othersOf entries opened.module) := by
    intro module among type text content here parsed
    have apart : module.path ≠ opened.module.path := by
      simpa using (Bool.and_eq_true_iff.mp (List.mem_filter.mp among).2).1
    exact moderate apart (elsewhere module.path apart ▸ here) parsed
  obtain ⟨marked, found⟩ := openModule_found left.intact named here
  -- What opening reads besides the text of the module decides whether it succeeds.
  have reopens : ∀ {content robot}, ModuleContent.parse text = .ok content →
      readRobot type ((held last.store (ModulePath.robot parts.workspace).text).map Prod.snd)
        = .ok robot → ∃ session,
          openSession last.store ⟨path, type, parts.module, parts.workspace, marked⟩ content robot
            = .ok session ∧ session.graph.Sound ∧ (session.document type).text = text := by
    intro content robot parsed read
    obtain ⟨mechanisms, session, fetched, loaded, sound, same⟩ :=
      follows.reopens stored left moderate member (by rw [beside]) here parsed read
    exact ⟨session, openSession_ok fetched loaded, sound, same⟩
  constructor
  · rw [load_ok_iff, ← readRobot_held_iff]
    simp only [found, openFound_eq_ok]
    constructor
    · rintro ⟨_, content, robot, _, parsed, read, -⟩
      exact ⟨⟨content, parsed⟩, robot, read⟩
    · rintro ⟨⟨content, parsed⟩, robot, read⟩
      obtain ⟨session, opens, -⟩ := reopens parsed read
      exact ⟨_, content, robot, session, parsed, read, opens, rfl⟩
  · intro opened next loaded
    obtain ⟨opens, rfl⟩ := load_eq_ok.mp loaded
    rw [found] at opens
    obtain ⟨content, robot, session, parsed, read, began, rfl⟩ := openFound_eq_ok.mp opens
    obtain ⟨same, again, sound, stores⟩ := reopens parsed read
    obtain rfl : session = same := Except.ok.inj (began.symm.trans again)
    have allowed : last.options.isValid = true := kept ▸ valid
    have made := Session.document_contentText sound allowed (left.composed here).known parts.module
    exact isModified_eq rfl (made.trans (congrArg Except.ok stores))

/-- A new opmode is opened and has nothing to save after the mechanism beside it was saved. -/
theorem save_leaves_unmodified_new :
    let steps : List EditorStep := [.createProject "A", .createModule "A" "M" .opMode,
      .createModule "A" "X" .mechanism, .load "A/X.blk"]
    let editor := steps.foldl step ({ store := {} } : Editor Shelf)
    (∃ paths, editor.save.1 = .ok paths) ∧ (∃ answer, editor.save.2.load "A/M.blk" = .ok answer) ∧
      ∀ opened next, editor.save.2.load "A/M.blk" = .ok (opened, next) → next.isModified = .ok false := by
  intro steps editor
  have robot : Legible newHolder .robot := legible_newHolder (by decide)
  have mechanism : Legible newHolder .mechanism := legible_newHolder (by decide)
  have opMode := legible_newDetails
  obtain ⟨s, loaded⟩ : ∃ s, Session.load newHolder.toForest
      (scopeOf (some (newHolder.document .robot)) []) .standard = .ok s := ⟨_, rfl⟩
  have same : editor = workshopEditor newHolder newDetails newHolder s := by
    change List.foldl step _ [_, _, _, _] = _
    rw [List.foldl_cons, lone_created, List.foldl_cons, List.foldl_cons, lone_furnished, List.foldl_cons,
      workshop_load robot mechanism loaded, List.foldl_nil]
  have whole : s.Whole := robot.whole.reload loaded
  have again : Legible s .mechanism :=
    ⟨whole, mechanism.known, newHolder_still .mechanism _ loaded ▸ mechanism.fits⟩
  have fresh : Reaches ({} : Shelf) {} { store := {} } := .start
  have reached : Reaches ({} : Shelf) {} editor := fresh.foldl_step steps
  have empty : Authored ({} : Shelf) := ⟨⟨rfl, .nil⟩, nofun⟩
  have moderate : ∀ {path type text content}, path ≠ "A/X.blk" →
      held (workshop newHolder newDetails newHolder) path = some (type, text) →
        ModuleContent.parse text = .ok content → content.Moderate := by
    intro path type text content _ here parsed
    rcases workshop_parse robot opMode mechanism here parsed with rfl | rfl | rfl
    · decide
    · decide
    · decide
  obtain ⟨round, -, paths, saved, stored, follows⟩ :=
    workshop_save newHolder robot opMode again ⟨⟨_, rfl⟩, ⟨_, rfl⟩⟩
  clear_value editor
  subst same
  obtain ⟨robot_held, opMode_held, -⟩ := workshop_holds newHolder newDetails s
  have still : held round.2 "A/M.blk" = some (.opMode, (newDetails.document .opMode).text) :=
    follows.keeps (List.mem_of_getElem? (show workshopOthers[1]? = _ from rfl)) opMode opMode_held
      fun scope _ loaded => newDetails_still .opMode scope loaded
  have beside : held round.2 "A/A.blk" = some (.robot, (newHolder.document .robot).text) :=
    follows.keeps (List.mem_of_getElem? (show workshopOthers[0]? = _ from rfl)) robot robot_held
      fun scope _ loaded => newHolder_still .robot scope loaded
  rw [← stored] at still beside
  have named : ModulePath.ofText? "A/M.blk" = some ⟨"A", "M"⟩ := rfl
  have own : (ModulePath.robot "A").text = "A/A.blk" := rfl
  have result := save_leaves_unmodified empty reached rfl rfl moderate saved
    (show "A/M.blk" ≠ "A/X.blk" by decide) named rfl still
  refine ⟨⟨paths, saved⟩, result.1.mpr ⟨⟨_, opMode.parse⟩, fun _ type text there => ?_⟩, result.2⟩
  rw [own, beside] at there
  cases there
  exact ⟨_, robot.parse⟩

/-! A robot whose stored text comes to nest too deep. -/

/-- A call of a method of the mechanism, and around it one call after the other. -/
def nestedCalls (n : Nat) : List SessionEdit :=
  .create .methodCall (.call { target := .mechanism "m" "X", name := "go" }) ::
    (List.range n).flatMap fun i => [.create .methodCall (.call { name := "f", args := [⟨"x", none⟩] }),
      .connectSocket ⟨i + 2⟩ (Socket.arg 0) ⟨i + 1⟩]

/-- The method that is called, with a parameter. -/
def calledMethod : List SessionEdit :=
  [.create .methodDef (.method { params := [⟨"p", none⟩], visibility := .outside }),
    .setField ⟨1⟩ Field.name "go"]

/-- A new robot or mechanism, opened. -/
def openedHolder (scope : Scope) : Session :=
  (Session.load newHolder.toForest scope .standard).toOption.getD {}

def deepRobot : Session := (nestedCalls 40).foldl Session.edit (openedHolder {})

def callee : Session :=
  calledMethod.foldl Session.edit (openedHolder (scopeOf (some (deepRobot.document .robot)) []))

def deeperRobot : Session :=
  (Session.load deepRobot.toForest (scopeOf none [("X", callee.document .mechanism)]) .standard).toOption.getD {}

/-- Editing a session keeps it whole. -/
theorem foldl_edit_whole (edits : List SessionEdit) {s : Session} (whole : s.Whole) :
    (edits.foldl Session.edit s).Whole := by
  induction edits generalizing s with
  | nil => exact whole
  | cons edit edits ih => exact ih (whole.edit edit)

theorem openedHolder_whole (scope : Scope) (edits : List SessionEdit) :
    (edits.foldl Session.edit (openedHolder scope)).Whole := by
  have legible : Legible newHolder .robot := legible_newHolder (by decide)
  have loaded : Session.load newHolder.toForest scope .standard = .ok (openedHolder scope) := rfl
  exact foldl_edit_whole edits (legible.whole.reload loaded)

/-- A new project whose robot is opened and edited. -/
theorem lone_edited (edits : List SessionEdit) :
    (.createProject "A" :: .load "A/A.blk" :: edits.map .edit : List EditorStep).foldl step
        ({ store := {} } : Editor Shelf)
      = { store := lone newHolder,
          current := some (loneOpened newHolder (edits.foldl Session.edit (openedHolder {}))) } := by
  have loaded : Session.load newHolder.toForest {} .standard = .ok (openedHolder {}) := rfl
  rw [List.foldl_cons, lone_created, List.foldl_cons, lone_load (legible_newHolder (by decide)) loaded,
    foldl_step_edit, lone_change]

theorem callee_fits : fits levels (callee.document .mechanism).encode = true := rfl

/-- The robot can be read and rebuilt, and is moderate; with the argument it nests too deep. -/
theorem deepRobot_fits :
    (fits levels (deepRobot.document .robot).encode = true ∧ (deepRobot.document .robot).Moderate ∧
      (Graph.ofForest deepRobot.toForest).toBool = true) ∧
    fits levels (deeperRobot.document .robot).encode = false := by
  decide +kernel

/-- The mechanism's new method gives the call of the robot an argument, with which the robot is stored
but no longer read, so that the opmode beside it cannot be opened. -/
theorem save_buries_robot :
    let steps : List EditorStep := .createProject "A" :: .load "A/A.blk" :: (nestedCalls 40).map .edit ++
      .save :: .createModule "A" "M" .opMode :: .createModule "A" "X" .mechanism :: .load "A/X.blk" ::
        calledMethod.map .edit
    let editor := steps.foldl step ({ store := {} } : Editor Shelf)
    (∀ path type text content, held editor.store path = some (type, text) →
      ModuleContent.parse text = .ok content → content.Moderate) ∧
    (∃ opened, editor.current = some opened ∧ opened.module.type = .mechanism) ∧
    (∃ paths, editor.save.1 = .ok paths) ∧
    (∃ text content, held editor.save.2.store "A/M.blk" = some (.opMode, text) ∧
      ModuleContent.parse text = .ok content) ∧
    ¬ ∃ answer, editor.save.2.load "A/M.blk" = .ok answer := by
  intro steps editor
  obtain ⟨⟨fits, moderate, made⟩, unfit⟩ := deepRobot_fits
  have rebuilt : ∃ g, Graph.ofForest deepRobot.toForest = .ok g := toBool_iff.mp made
  have robot : Legible deepRobot .robot := ⟨openedHolder_whole _ _, by decide, fits⟩
  have mechanism : Legible callee .mechanism := ⟨openedHolder_whole _ _, by decide, callee_fits⟩
  have opMode := legible_newDetails
  have holder : Legible newHolder .mechanism := legible_newHolder (by decide)
  have first : (.createProject "A" :: .load "A/A.blk" :: (nestedCalls 40).map .edit : List EditorStep).foldl
      step ({ store := {} } : Editor Shelf)
        = { store := lone newHolder, current := some (loneOpened newHolder deepRobot) } :=
    lone_edited (nestedCalls 40)
  have same : editor = workshopEditor deepRobot newDetails newHolder callee := by
    have loaded : Session.load newHolder.toForest (scopeOf (some (deepRobot.document .robot)) []) .standard
        = .ok (openedHolder _) := rfl
    change List.foldl step _ (_ :: _ :: List.map _ _ ++ _ :: _ :: _ :: _ :: List.map _ _) = _
    rw [List.foldl_append, first, List.foldl_cons, lone_save robot, List.foldl_cons, List.foldl_cons,
      lone_furnished, List.foldl_cons, workshop_load robot holder loaded, foldl_step_edit, workshop_change]
    rfl
  clear_value editor
  subst same
  obtain ⟨round, began, paths, saved, stored, follows⟩ :=
    workshop_save newHolder robot opMode mechanism ⟨rebuilt, ⟨_, rfl⟩⟩
  have loaded : Session.load deepRobot.toForest (scopeOf none [("X", callee.document .mechanism)]) .standard
      = .ok deeperRobot := toOption_getD (Session.load_ok_iff.mpr rebuilt) {}
  have robot_last := workshop_robot robot mechanism loaded newDetails (some (deepRobot.document .robot))
  rw [← began] at robot_last
  obtain ⟨-, opMode_held, -⟩ := workshop_holds deepRobot newDetails callee
  have opMode_last : held round.2 "A/M.blk" = some (.opMode, (newDetails.document .opMode).text) :=
    follows.keeps (List.mem_of_getElem? (show workshopOthers[1]? = _ from rfl)) opMode opMode_held
      fun scope _ loaded => newDetails_still .opMode scope loaded
  refine ⟨?_, ⟨_, rfl, rfl⟩, ⟨paths, saved⟩, ⟨_, _, by rw [stored]; exact opMode_last, opMode.parse⟩,
    fun loads => ?_⟩
  · intro path type text content here parsed
    rcases workshop_parse robot opMode holder here parsed with rfl | rfl | rfl
    · exact moderate
    · decide
    · decide
  · obtain ⟨opened, found⟩ := load_ok_iff.mp loads
    have named : ModulePath.ofText? "A/M.blk" = some ⟨"A", "M"⟩ := rfl
    have own : (ModulePath.robot "A").text = "A/A.blk" := rfl
    obtain ⟨modified, same⟩ := openModule_found follows.intact named opMode_last
    rw [stored, same] at found
    obtain ⟨-, beside, -, -, read, -⟩ := openFound_eq_ok.mp found
    obtain ⟨content, parsed⟩ := readRobot_held_iff.mp ⟨beside, read⟩ nofun _ _ (own.symm ▸ robot_last)
    have whole : deeperRobot.Whole := robot.whole.reload loaded
    rw [whole.parse_text robot.known, if_neg (by simp [unfit])] at parsed
    cases parsed

/-! A mechanism whose text was made while there was an opmode under its path. -/

/-- Sessions that store different documents store different texts. -/
theorem Legible.text_ne {s t : Session} {type type' : ModuleType} (legible : Legible s type)
    (legible' : Legible t type') (other : s.document type ≠ t.document type') :
    (s.document type).text ≠ (t.document type').text := by
  intro same
  have parsed := same ▸ legible.parse
  exact other (Except.ok.inj (parsed.symm.trans legible'.parse))

omit [KeyedStore σ] in
theorem syncModule_skips {module : Module} {robot : Option ModuleContent}
    (fetched : ModuleStore.fetch store module.path = .ok text)
    (made : refreshed options store module text robot = .ok (some text)) :
    syncModule options store module robot = .ok (false, store) := by
  simp [syncModule, fetched, made, fromStore_ok, bind, Except.bind, pure, Except.pure]

omit [KeyedStore σ] in
theorem syncModule_writes {module : Module} {robot : Option ModuleContent} {newText : String} {store' : σ}
    (fetched : ModuleStore.fetch store module.path = .ok text)
    (made : refreshed options store module text robot = .ok (some newText)) (other : newText ≠ text)
    (saved : ModuleStore.save store module.path newText = .ok store') :
    syncModule options store module robot = .ok (true, store') := by
  simp [syncModule, fetched, made, other, saved, fromStore_ok, bind, Except.bind, pure, Except.pure]

variable {t : Session}

/-- A workshop whose mechanism has a text that was stored for an opmode. -/
def recreated (robot opMode callee : Session) : Shelf where
  modules := [("A/A.blk", ⟨.robot, (robot.document .robot).text, 0⟩),
    ("A/M.blk", ⟨.opMode, (opMode.document .opMode).text, 0⟩),
    ("A/X.blk", ⟨.mechanism, (callee.document .opMode).text, 0⟩)]

theorem recreated_lists (r m x : Session) : ModuleStore.entries (recreated r m x) = .ok workshopEntries := rfl

theorem recreated_intact (r m x : Session) : Intact (recreated r m x) := by
  have ascending : ((recreated r m x).modules.map Prod.fst).Pairwise (· < ·) :=
    show ["A/A.blk", "A/M.blk", "A/X.blk"].Pairwise (· < ·) by decide
  exact ⟨rfl, List.pairwise_map.mp ascending⟩

theorem recreated_holds (r m x : Session) :
    held (recreated r m x) "A/A.blk" = some (.robot, (r.document .robot).text) ∧
      held (recreated r m x) "A/M.blk" = some (.opMode, (m.document .opMode).text) ∧
      held (recreated r m x) "A/X.blk" = some (.mechanism, (x.document .opMode).text) :=
  ⟨rfl, rfl, rfl⟩

/-- What follows when the robot is saved. -/
def robotOthers : List Module := [⟨"A/M.blk", .opMode, "M", "A", 0⟩, ⟨"A/X.blk", .mechanism, "X", "A", 0⟩]

/-- The round leaves the opmode, which sees a mechanism that declares nothing, and then gives the mechanism
the text of one. -/
theorem recreated_round (opMode : Legible m .opMode) (callee : Legible x .opMode) (mechanism : Legible t .mechanism)
    (loaded : Session.load m.toForest (scopeOf (some (r.document .robot)) [("X", x.document .opMode)])
      .standard = .ok s) (same : s.document .opMode = m.document .opMode)
    (reloaded : Session.load x.toForest (scopeOf (some (r.document .robot)) []) .standard = .ok t) :
    syncEach {} (some (r.document .robot)) (recreated r m x) robotOthers
      = (.ok ["A/X.blk"], workshop r m t) := by
  have intact := recreated_intact r m x
  obtain ⟨-, -, callee_held⟩ := recreated_holds r m x
  have valid : ({} : Code.Options).isValid = true := by decide
  let first : Module := ⟨"A/M.blk", .opMode, "M", "A", 0⟩
  let last : Module := ⟨"A/X.blk", .mechanism, "X", "A", 0⟩
  have beside : mechanismsOf workshopEntries "A" "A/M.blk" = [last] := rfl
  have alone : mechanismsOf workshopEntries "A" "A/X.blk" = [] := rfl
  have seen : fetchMechanisms (recreated r m x) "A" "A/M.blk" = .ok [("X", x.document .opMode)] := by
    rw [fetchMechanisms_eq intact (recreated_lists r m x), beside]
    simp only [List.filterMap_cons, List.filterMap_nil, readMechanism, last, callee_held, Option.bind_some,
      callee.parse]
    rfl
  have none : fetchMechanisms (recreated r m x) "A" "A/X.blk" = .ok [] := by
    rw [fetchMechanisms_eq intact (recreated_lists r m x), alone]
    rfl
  have stays : refreshed {} (recreated r m x) first (m.document .opMode).text (some (r.document .robot))
      = .ok (some (m.document .opMode).text) := by
    rw [← same]
    exact refreshed_load valid opMode.known (same ▸ opMode.parse) seen (same ▸ loaded)
  have turns : refreshed {} (recreated r m x) last (x.document .opMode).text (some (r.document .robot))
      = .ok (some (t.document .mechanism).text) :=
    refreshed_load valid mechanism.known callee.parse none reloaded
  have other := mechanism.text_ne callee fun same => by cases congrArg ModuleContent.type same
  have saved : ModuleStore.save (recreated r m x) "A/X.blk" (t.document .mechanism).text
      = .ok (workshop r m t) := by
    have first : ¬ "A/X.blk" < "A/A.blk" := by decide
    have second : ¬ "A/X.blk" < "A/M.blk" := by decide
    change Except.ok (Shelf.put _ _ _) = _
    simp [Shelf.put, Shelf.insertModule, recreated, workshop, first, second]
  change syncEach {} _ (recreated r m x) [first, last] = _
  simp only [syncEach, syncModule_skips (show ModuleStore.fetch _ first.path = _ from rfl) stays,
    syncModule_writes (show ModuleStore.fetch _ last.path = _ from rfl) turns other saved]
  rfl

/-- Saving the robot of such a workshop takes the others through this round. -/
theorem recreated_save (robot : Legible r .robot) (opMode : Legible m .opMode) (callee : Legible x .opMode)
    (mechanism : Legible t .mechanism)
    (loaded : Session.load m.toForest (scopeOf (some (r.document .robot)) [("X", x.document .opMode)])
      .standard = .ok s) (same : s.document .opMode = m.document .opMode)
    (reloaded : Session.load x.toForest (scopeOf (some (r.document .robot)) []) .standard = .ok t) :
    ({ store := recreated r m x, current := some (loneOpened r r) } : Editor Shelf).save
      = (.ok ["A/X.blk"], { store := workshop r m t, current := some (loneOpened r r) }) := by
  let editor : Editor Shelf := { store := recreated r m x, current := some (loneOpened r r) }
  have intact := recreated_intact r m x
  have made : editor.contentText = .ok (r.document .robot).text :=
    Session.document_contentText robot.whole.graph.sound (show ({} : Code.Options).isValid = true by decide)
      robot.known "A"
  have stored : ModuleStore.save editor.store (loneOpened r r).module.path (r.document .robot).text
      = .ok (recreated r m x) := by
    change Except.ok (Shelf.put _ _ _) = _
    simp [Shelf.put, Shelf.insertModule, recreated, loneOpened, editor]
  have path : (ModulePath.robot (loneOpened r r).module.workspace).text = "A/A.blk" := by
    change (ModulePath.robot "A").text = "A/A.blk"
    rfl
  have own : robotOf (recreated r m x) (loneOpened r r).module.workspace = some (r.document .robot) := by
    rw [robotOf, path, (recreated_holds r m x).1, Option.bind_some, robot.parse]
    rfl
  have readable : ∀ {type text}, held (recreated r m x) (ModulePath.robot (loneOpened r r).module.workspace).text
      = some (type, text) → ∃ content, ModuleContent.parse text = .ok content := by
    intro type text here
    rw [path, (recreated_holds r m x).1] at here
    cases here
    exact ⟨_, robot.parse⟩
  have others : othersOf workshopEntries (loneOpened r r).module = robotOthers := by
    change othersOf workshopEntries ⟨"A/A.blk", .robot, "A", "A", 0⟩ = _
    rfl
  have saves := save_eq intact rfl rfl made stored (recreated_lists r m x) readable
  have plain : editor.options = {} := rfl
  change editor.save = _
  rw [own, others, plain, recreated_round opMode callee mechanism loaded same reloaded] at saves
  exact saves

/-- The opmode of a workshop is modified when it is opened if the mechanism makes it store something else. -/
theorem workshop_modified (robot : Legible r .robot) (opMode : Legible m .opMode) (mechanism : Legible x .mechanism)
    (after : Legible s .opMode)
    (loaded : Session.load m.toForest (scopeOf (some (r.document .robot)) [("X", x.document .mechanism)])
      .standard = .ok s) (other : s.document .opMode ≠ m.document .opMode) (current : Option OpenModule) :
    ∃ opened next, ({ store := workshop r m x, current } : Editor Shelf).load "A/M.blk" = .ok (opened, next) ∧
      next.isModified = .ok true := by
  have intact := workshop_intact r m x
  obtain ⟨beside, here, mechanism_held⟩ := workshop_holds r m x
  have seen : fetchMechanisms (workshop r m x) "A" "A/M.blk" = .ok [("X", x.document .mechanism)] := by
    have among : mechanismsOf workshopEntries "A" "A/M.blk" = [⟨"A/X.blk", .mechanism, "X", "A", 0⟩] := rfl
    rw [fetchMechanisms_eq intact (workshop_lists r m x), among]
    simp only [List.filterMap_cons, List.filterMap_nil, readMechanism, mechanism_held, Option.bind_some,
      mechanism.parse]
    rfl
  have named : ModulePath.ofText? "A/M.blk" = some ⟨"A", "M"⟩ := rfl
  have listed : workshopEntries.find? (fun entry => entry.path = "A/M.blk")
      = some ⟨"A/M.blk", .opMode, 0⟩ := rfl
  have found := openModule_ok intact named here beside (workshop_lists r m x) listed (by decide)
    opMode.parse robot.parse (openSession_ok seen loaded)
  have made : s.contentText .opMode "M" {} = .ok (s.document .opMode).text :=
    Session.document_contentText after.whole.graph.sound (by decide) after.known "M"
  have modified : (s.document .opMode).text ≠ (m.document .opMode).text := after.text_ne opMode other
  exact ⟨_, _, load_eq_ok.mpr ⟨found, rfl⟩, (isModified_made rfl made).trans (by simp [modified])⟩

/-- An opmode that calls a method of the mechanism. -/
def caller : Session :=
  newDetails.edit (.create .methodCall (.call { target := .mechanism "m" "X", name := "go" }))

/-- The method, in an opmode. -/
def opModeCallee : Session := calledMethod.foldl Session.edit newDetails

/-- A session opened beside a new robot and some mechanisms. -/
def besideRobot (s : Session) (mechanisms : Labelled ModuleContent) : Session :=
  (Session.load s.toForest (scopeOf (some (newHolder.document .robot)) mechanisms) .standard).toOption.getD {}

def mechanismCallee : Session := besideRobot opModeCallee []

def callerAfter : Session := besideRobot caller [("X", mechanismCallee.document .mechanism)]

theorem besideRobot_loads {s : Session} (mechanisms : Labelled ModuleContent)
    (rebuilt : ∃ g, Graph.ofForest s.toForest = .ok g) :
    Session.load s.toForest (scopeOf (some (newHolder.document .robot)) mechanisms) .standard
      = .ok (besideRobot s mechanisms) :=
  toOption_getD (Session.load_ok_iff.mpr rebuilt) {}

/-- A block of the graph that a content is rebuilt to. -/
def rebuiltBlock? (content : ModuleContent) (id : BlockId) : Option Block :=
  (Graph.ofForest content.blocks).toOption.bind (·.block? id)

theorem callers_fit :
    ((caller.document .opMode).Moderate ∧ (opModeCallee.document .opMode).Moderate) ∧
    fits levels (caller.document .opMode).encode = true ∧
    fits levels (opModeCallee.document .opMode).encode = true ∧
    fits levels (mechanismCallee.document .mechanism).encode = true ∧
    fits levels (callerAfter.document .opMode).encode = true := by
  decide +kernel

/-- The call gets the parameter of the method. -/
theorem callers_rebuilt :
    (Graph.ofForest caller.toForest).toBool = true ∧ (Graph.ofForest opModeCallee.toForest).toBool = true ∧
    rebuiltBlock? (callerAfter.document .opMode) ⟨1⟩ ≠ rebuiltBlock? (caller.document .opMode) ⟨1⟩ := by
  decide +kernel

/-- A mechanism that was stored while there was an opmode under its path is read without declarations until
the round comes to it. An opmode before it is modified when it is opened after the round. -/
theorem save_leaves_modified :
    let editor : Editor Shelf :=
      { store := recreated newHolder caller opModeCallee, current := some (loneOpened newHolder newHolder) }
    (∀ path type text, held editor.store path = some (type, text) →
      ∃ stored content, Composed stored text ∧ ModuleContent.parse text = .ok content ∧ content.Moderate) ∧
    editor.save.1 = .ok ["A/X.blk"] ∧
    ∃ opened next, editor.save.2.load "A/M.blk" = .ok (opened, next) ∧ next.isModified = .ok true := by
  intro editor
  obtain ⟨⟨caller_moderate, callee_moderate⟩, caller_fits, callee_fits, mechanism_fits, after_fits⟩ :=
    callers_fit
  obtain ⟨caller_rebuilt, callee_rebuilt, other⟩ := callers_rebuilt
  have robot : Legible newHolder .robot := legible_newHolder (by decide)
  have details := legible_newDetails.whole
  have opMode : Legible caller .opMode := ⟨details.edit _, by decide, caller_fits⟩
  have callee : Legible opModeCallee .opMode := ⟨foldl_edit_whole calledMethod details, by decide, callee_fits⟩
  have during := besideRobot_loads [("X", opModeCallee.document .opMode)] (toBool_iff.mp caller_rebuilt)
  have turned := besideRobot_loads [] (toBool_iff.mp callee_rebuilt)
  have opened := besideRobot_loads [("X", mechanismCallee.document .mechanism)] (toBool_iff.mp caller_rebuilt)
  have mechanism : Legible mechanismCallee .mechanism := ⟨callee.whole.reload turned, by decide, mechanism_fits⟩
  have after : Legible callerAfter .opMode := ⟨opMode.whole.reload opened, by decide, after_fits⟩
  have saves : editor.save = _ := recreated_save robot opMode callee mechanism during rfl turned
  rw [saves]
  refine ⟨?_, rfl, ?_⟩
  · have valid : ({} : Code.Options).isValid = true := by decide
    have stored : ∀ {s : Session} {type : ModuleType}, Legible s type → (s.document type).Moderate →
        ∃ made content, Composed made (s.document type).text ∧
          ModuleContent.parse (s.document type).text = .ok content ∧ content.Moderate :=
      fun {s type} legible moderate => ⟨type, s.document type, ⟨s, "", {}, legible.whole, legible.known,
        Session.document_contentText legible.whole.graph.sound valid legible.known ""⟩, legible.parse, moderate⟩
    intro path type text here
    change ((recreated newHolder caller opModeCallee).modules.lookup path).map
      (fun module => (module.type, module.text)) = some (type, text) at here
    simp only [recreated, Shelf.lookup_cons] at here
    split at here
    · cases here
      exact stored robot (by decide)
    · split at here
      · cases here
        exact stored opMode caller_moderate
      · split at here
        · cases here
          exact stored callee callee_moderate
        · cases here
  · exact workshop_modified robot opMode mechanism after opened
      (fun same => other (congrArg (rebuiltBlock? · ⟨1⟩) same)) _

end Editor
end RobotBlocks
