import RobotBlocks.Proofs.Editor.Stocked

/-! Opening a module of a store against the workspace that it belongs to. -/
namespace RobotBlocks.Editor

open Json Decoder LawfulStore

variable {σ : Type} [ModuleStore σ] {store store' : σ} {module : Module}
  {robot : Option ModuleContent}

theorem fromStore_ok {α : Type} (a : α) : fromStore (.ok a) = .ok a := rfl

theorem fromStore_eq_ok {α : Type} {answer : Except StoreError α} {a : α} :
    fromStore answer = .ok a ↔ answer = .ok a := mapError_eq_ok

/-- Opening reads the robot of the workspace with every other module. -/
def readRobot (type : ModuleType) : Option String → Except EditorError (Option ModuleContent)
  | some text => if type = .robot then pure none else some <$> parseContent text
  | none => pure none

/-- Opening a module that was found in the store. -/
def openFound (store : σ) (module : Module) (text : String) (robotText : Option String) :
    Except EditorError OpenModule := do
  let content ← parseContent text
  let robot ← readRobot module.type robotText
  let session ← openSession store module content robot
  return { module, session, savedText := text, robot }

theorem openFound_eq_ok {module : Module} {text : String} {robotText : Option String}
    {opened : OpenModule} : openFound store module text robotText = .ok opened ↔
      ∃ content robot session, ModuleContent.parse text = .ok content ∧
        readRobot module.type robotText = .ok robot ∧
        openSession store module content robot = .ok session ∧
        { module, session, savedText := text, robot } = opened := by
  simp only [openFound, parseContent, bind_eq_ok, mapError_eq_ok, pure_eq_ok]
  constructor
  · rintro ⟨content, parsed, robot, read, session, loaded, same⟩
    exact ⟨content, robot, session, parsed, read, loaded, same⟩
  · rintro ⟨content, robot, session, parsed, read, loaded, same⟩
    exact ⟨content, parsed, robot, read, session, loaded, same⟩

variable [LawfulStore σ]

theorem module?_held {entries : List ModuleEntry}
    (sound : ∀ entry ∈ entries, ∃ text, held store entry.path = some (entry.type, text))
    (member : module ∈ entries.filterMap (·.module?)) : Holds store module := by
  obtain ⟨entry, listed, named⟩ := List.mem_filterMap.mp member
  obtain ⟨parts, -, rfl⟩ := Option.map_eq_some_iff.mp named
  exact sound entry listed

/-- The mechanisms of a workspace can always be fetched. -/
theorem fetchMechanisms_ok (intact : Intact store) (workspace path : String) :
    ∃ mechanisms, fetchMechanisms store workspace path = .ok mechanisms := by
  obtain ⟨entries, listed, sound, -⟩ := LawfulStore.entries_eq intact
  let others := (entries.filterMap (·.module?)).filter fun module =>
    module.type = .mechanism && module.path ≠ path && module.workspace = workspace
  have fetched : ∀ module ∈ others, ∃ content, (do
      let text ← ModuleStore.fetch store module.path
      return (ModuleContent.parse text).toOption.map fun content => (module.name, content))
        = Except.ok content := by
    intro module member
    obtain ⟨text, here⟩ := module?_held sound (List.mem_of_mem_filter member)
    simp only [LawfulStore.fetch_eq intact, here, bind_eq_ok, pure_eq_ok]
    exact ⟨_, text, rfl, rfl⟩
  obtain ⟨contents, made⟩ := exists_mapM_eq_ok fetched
  refine ⟨contents.filterMap id, ?_⟩
  simp only [fetchMechanisms, bind_eq_ok, pure_eq_ok]
  exact ⟨entries, listed, contents, made, rfl⟩

/-- What is fetched of a mechanism: its name and its content, if that can be read. -/
def readMechanism (store : σ) (module : Module) : Option (String × ModuleContent) :=
  ((held store module.path).bind fun (_, text) => (ModuleContent.parse text).toOption).map
    fun content => (module.name, content)

/-- The other mechanisms of a workspace, in the order of the entries. -/
def mechanismsOf (entries : List ModuleEntry) (workspace path : String) : List Module :=
  (entries.filterMap (·.module?)).filter fun module =>
    module.type = .mechanism && module.path ≠ path && module.workspace = workspace

theorem fetchMechanisms_eq {entries : List ModuleEntry} (intact : Intact store)
    (listed : ModuleStore.entries store = .ok entries) (workspace path : String) :
    fetchMechanisms store workspace path
      = .ok ((mechanismsOf entries workspace path).filterMap (readMechanism store)) := by
  obtain ⟨same, again, sound, -⟩ := LawfulStore.entries_eq intact
  obtain rfl : entries = same := Except.ok.inj (listed.symm.trans again)
  have each : ∀ module ∈ mechanismsOf entries workspace path, (do
      let text ← ModuleStore.fetch store module.path
      return (ModuleContent.parse text).toOption.map fun content => (module.name, content))
        = Except.ok (readMechanism store module) := by
    intro module member
    obtain ⟨text, here⟩ := module?_held sound (List.mem_of_mem_filter member)
    simp only [LawfulStore.fetch_eq intact, here, readMechanism]
    rfl
  simp only [fetchMechanisms, listed, bind_eq_ok, Except.ok.injEq, exists_eq_left', pure_eq_ok]
  exact ⟨_, mapM_eq_ok each, by rw [List.filterMap_map]; rfl⟩

/-- Opening a session fails only where its blocks cannot be rebuilt. -/
theorem openSession_eq (intact : Intact store) (module : Module) (content : ModuleContent)
    (robot : Option ModuleContent) : ∃ scope, openSession store module content robot
      = (Session.load content.blocks scope .standard).mapError .graph := by
  obtain ⟨mechanisms, fetched⟩ := fetchMechanisms_ok intact module.workspace module.path
  refine ⟨scopeOf robot mechanisms, ?_⟩
  simp only [openSession, fetched, fromStore_ok]
  rfl

theorem openSession_whole {content : ModuleContent} {session : Session} (intact : Intact store)
    (distinct : content.blocks.Distinct)
    (loaded : openSession store module content robot = .ok session) : session.Whole := by
  obtain ⟨scope, same⟩ := openSession_eq intact module content robot
  rw [same] at loaded
  exact .load distinct (mapError_eq_ok.mp loaded)

/-- The open module is a module of the store, named by its path. -/
structure Opened (store : σ) (opened : OpenModule) : Prop where
  session : opened.session.Whole
  holds : Holds store opened.module
  path : ModulePath.ofText? opened.module.path = some ⟨opened.module.workspace, opened.module.name⟩

theorem Opened.kept {store' : σ} {opened : OpenModule} (known : Opened store opened)
    (keeps : Keeps store store') : Opened store' opened :=
  ⟨known.session, let ⟨_, here⟩ := known.holds; keeps here, known.path⟩

theorem fetchRobot_eq (intact : Intact store) (workspace : String) : fetchRobot store workspace
    = .ok ((held store (ModulePath.robot workspace).text).map Prod.snd) := by
  rw [fetchRobot, ModuleStore.fetchOptional, LawfulStore.fetch_eq intact]
  cases held store (ModulePath.robot workspace).text <;> rfl

theorem openModule_eq {path text : String} {parts : ModulePath} {entry : ModuleEntry}
    {entries : List ModuleEntry} (intact : Intact store)
    (named : ModulePath.ofText? path = some parts) (here : held store path = some (entry.type, text))
    (listed : ModuleStore.entries store = .ok entries)
    (found : entries.find? (fun entry => entry.path = path) = some entry) : openModule store path
      = openFound store ⟨path, entry.type, parts.module, parts.workspace, entry.modified⟩ text
          ((held store (ModulePath.robot parts.workspace).text).map Prod.snd) := by
  have fetched : ModuleStore.fetch store path = .ok text := by
    rw [LawfulStore.fetch_eq intact, here]
  simp only [openModule, parsePath, named, fetched, fetchRobot_eq intact, listed, fromStore_ok]
  simp only [bind, Except.bind, found, openFound]
  cases held store (ModulePath.robot parts.workspace).text with
  | none => rfl
  | some robot =>
    by_cases own : entry.type = .robot
    · simp only [Option.map_some, readRobot, if_pos own]
    · simp only [Option.map_some, readRobot, if_neg own]

/-- A module that the store holds is found among its entries. -/
theorem openModule_found {path text : String} {parts : ModulePath} {type : ModuleType}
    (intact : Intact store) (named : ModulePath.ofText? path = some parts)
    (here : held store path = some (type, text)) : ∃ modified, openModule store path
      = openFound store ⟨path, type, parts.module, parts.workspace, modified⟩ text
          ((held store (ModulePath.robot parts.workspace).text).map Prod.snd) := by
  obtain ⟨entries, listed, sound, complete⟩ := LawfulStore.entries_eq intact
  obtain ⟨entry, found⟩ : ∃ entry, entries.find? (fun entry => entry.path = path) = some entry := by
    rw [← Option.isSome_iff_exists, List.find?_isSome]
    obtain ⟨entry, member, same⟩ := complete path (by rw [here]; rfl)
    exact ⟨entry, member, by simpa using same⟩
  have same : entry.path = path := by simpa using List.find?_some found
  obtain ⟨text', there⟩ := sound entry (List.mem_of_find?_eq_some found)
  rw [same, here] at there
  obtain ⟨rfl, -⟩ := Prod.mk.inj (Option.some.inj there)
  exact ⟨entry.modified, openModule_eq intact named here listed found⟩

/-- A module that is opened is one that the store holds under a path. -/
theorem openModule_read {path : String} {opened : OpenModule} (intact : Intact store)
    (h : openModule store path = .ok opened) : ∃ parts type text modified,
      ModulePath.ofText? path = some parts ∧ held store path = some (type, text) ∧
        openFound store ⟨path, type, parts.module, parts.workspace, modified⟩ text
          ((held store (ModulePath.robot parts.workspace).text).map Prod.snd) = .ok opened := by
  obtain ⟨parts, named⟩ : ∃ parts, ModulePath.ofText? path = some parts := by
    simp only [openModule, bind_eq_ok] at h
    obtain ⟨parts, parsed, -⟩ := h
    rw [fromStore_eq_ok] at parsed
    unfold parsePath at parsed
    cases named : ModulePath.ofText? path with
    | none => simp [named] at parsed
    | some parts => exact ⟨parts, rfl⟩
  obtain ⟨type, text, here⟩ : ∃ type text, held store path = some (type, text) := by
    simp only [openModule, bind_eq_ok, fromStore_eq_ok, LawfulStore.fetch_eq intact] at h
    obtain ⟨-, -, text, fetched, -⟩ := h
    cases here : held store path with
    | none => simp [here] at fetched
    | some own => exact ⟨own.1, own.2, rfl⟩
  obtain ⟨modified, same⟩ := openModule_found intact named here
  exact ⟨parts, type, text, modified, named, here, same ▸ h⟩

theorem openModule_opened {path : String} {opened : OpenModule} (stocked : Stocked store)
    (h : openModule store path = .ok opened) : Opened store opened := by
  obtain ⟨parts, type, text, modified, named, here, found⟩ := openModule_read stocked.intact h
  obtain ⟨content, robot, session, parsed, -, loaded, rfl⟩ := openFound_eq_ok.mp found
  obtain ⟨-, -, distinct⟩ := (stocked.written here).parsed parsed
  exact ⟨openSession_whole stocked.intact distinct loaded, ⟨text, here⟩, named⟩

theorem readRobot_ok_iff (type : ModuleType) (robotText : Option String) :
    (∃ robot, readRobot type robotText = .ok robot) ↔ (type ≠ .robot → ∀ text, robotText = some text →
      ∃ content, ModuleContent.parse text = .ok content) := by
  cases robotText with
  | none => simp [readRobot, pure_eq_ok]
  | some text =>
    by_cases own : type = .robot
    · simp [readRobot, own, pure_eq_ok]
    · have read : ∀ robot, some <$> parseContent text = Except.ok robot ↔
          ∃ content, ModuleContent.parse text = .ok content ∧ some content = robot := by
        intro robot
        apply (map_eq_ok (x := parseContent text)).trans
        simp only [parseContent, mapError_eq_ok]
      simp [readRobot, own, read]

/-- A stored content is opened when its document can be read, its blocks can be rebuilt and the
robot of its workspace can be read. -/
theorem openModule_ok_iff {path : String} {parts : ModulePath} {type : ModuleType}
    {content : ModuleContent} (intact : Intact store) (named : ModulePath.ofText? path = some parts)
    (here : held store path = some (type, content.text)) (distinct : content.blocks.Distinct)
    (known : content.type ≠ .unknown) : (∃ opened, openModule store path = .ok opened) ↔
      fits levels content.encode = true ∧ (∃ g, Graph.ofForest content.blocks = .ok g) ∧
        (type ≠ .robot → ∀ type text, held store (ModulePath.robot parts.workspace).text
          = some (type, text) → ∃ robot, ModuleContent.parse text = .ok robot) := by
  obtain ⟨modified, same⟩ := openModule_found intact named here
  have robots := readRobot_ok_iff type
    ((held store (ModulePath.robot parts.workspace).text).map Prod.snd)
  simp only [same, openFound_eq_ok]
  constructor
  · rintro ⟨opened, read, robot, session, parsed, own, loaded, -⟩
    rw [ModuleContent.parse_text distinct known] at parsed
    split at parsed
    · next fitting =>
      cases parsed
      obtain ⟨scope, same⟩ := openSession_eq intact _ content robot
      rw [same] at loaded
      refine ⟨fitting, Session.load_ok_iff.mp ⟨session, mapError_eq_ok.mp loaded⟩, ?_⟩
      intro other type text there
      exact robots.mp ⟨robot, own⟩ other text (by rw [there]; rfl)
    · cases parsed
  · rintro ⟨fitting, rebuilt, readable⟩
    obtain ⟨robot, own⟩ := robots.mpr fun other text there => by
      obtain ⟨⟨type, text⟩, held, rfl⟩ := Option.map_eq_some_iff.mp there
      exact readable other type text held
    obtain ⟨scope, same⟩ :=
      openSession_eq intact ⟨path, type, parts.module, parts.workspace, modified⟩ content robot
    obtain ⟨session, loaded⟩ := Session.load_ok_iff.mpr rebuilt
    refine ⟨_, content, robot, session, ?_, own, ?_, rfl⟩
    · rw [ModuleContent.parse_text distinct known, if_pos fitting]
    · rw [same, mapError_eq_ok, loaded]

end RobotBlocks.Editor
