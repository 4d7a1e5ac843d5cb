import RobotBlocks.Code.Generator
import RobotBlocks.Session
import RobotBlocks.Store.Basic

/-! The editor: at most one open module between a store, the session on its blocks and the
generator. A module is opened against the declarations that the robot and the mechanisms of its
workspace export; after a robot or mechanism is saved, the other modules of the workspace follow. -/
namespace RobotBlocks

inductive EditorError where
  | graph (error : GraphError)
  | generate (error : Code.GenerateError)
  | store (error : StoreError)
  | noOpenModule
  | robotUnavailable (workspace : String)
  | invalidName (name : String)
  /-- A robot moves and goes only with its workspace. -/
  | isRobot (path : String)
  /-- Robots are created with their project, never on their own. -/
  | invalidType (type : ModuleType)
  deriving DecidableEq, Repr

def EditorError.message : EditorError → String
  | .graph error => error.message
  | .generate error => error.message
  | .store error => error.message
  | .noOpenModule => "no module is open"
  | .robotUnavailable workspace =>
    "robot content of workspace '" ++ workspace ++ "' is not available"
  | .invalidName name => "invalid name: '" ++ name ++ "'"
  | .isRobot path => "'" ++ path ++ "' is the workspace robot"
  | .invalidType type =>
    "cannot create a module of type '" ++ type.name ++ "' in an existing workspace"

structure OpenModule where
  module : Module
  session : Session
  /-- The text as it was last fetched or saved. -/
  savedText : String
  /-- The content of the robot of the workspace, if another module is open. -/
  robot : Option ModuleContent

structure Editor (σ : Type) where
  store : σ
  options : Code.Options := {}
  current : Option OpenModule := none

/-! Content of a session. -/

namespace Session

def generate (s : Session) (type : ModuleType) (name : String) (options : Code.Options) :
    Except EditorError Code.Generated :=
  (Code.generate type name s.graph s.scope options).mapError .generate

/-- What a session stores. Robots and mechanisms export their declarations, opmodes none. -/
def content (s : Session) (type : ModuleType) (name : String) (options : Code.Options) :
    Except EditorError ModuleContent := do
  let generated ← s.generate type name options
  return { type, blocks := s.toForest, opMode := generated.opMode
           declarations := if type.exports then generated.declarations.exported else {} }

def contentText (s : Session) (type : ModuleType) (name : String) (options : Code.Options) :
    Except EditorError String :=
  ModuleContent.text <$> s.content type name options

/-- The session of a new module: a component holder, or the details of an opmode under its name. -/
def starter (type : ModuleType) (name : String) : Except EditorError Session :=
  match type with
  | .robot | .mechanism => .ok (createBlock {} .componentHolder .none).2
  | .opMode =>
    let (details, s) := createBlock {} .opModeDetails .none
    (Prod.snd <$> s.setField details Field.name name).mapError .graph
  | .unknown => .error (.invalidType type)

end Session

namespace Editor

variable {σ : Type} [ModuleStore σ]

/-! Reading the store. -/

def parseContent (text : String) : Except EditorError ModuleContent :=
  (ModuleContent.parse text).mapError fun error => .store (.content error)

def fromStore {α : Type} (answer : Except StoreError α) : Except EditorError α :=
  answer.mapError .store

/-- The contents of the mechanisms of a workspace except the one under a path, by name.
Unreadable ones are skipped. -/
def fetchMechanisms (store : σ) (workspace path : String) :
    Except StoreError (Labelled ModuleContent) := do
  let modules := (← ModuleStore.entries store).filterMap (·.module?)
  let others := modules.filter fun module =>
    module.type = .mechanism && module.path ≠ path && module.workspace = workspace
  let contents ← others.mapM fun module => do
    let text ← ModuleStore.fetch store module.path
    return (ModuleContent.parse text).toOption.map fun content => (module.name, content)
  return contents.filterMap id

def scopeOf (robot : Option ModuleContent) (mechanisms : Labelled ModuleContent) : Scope where
  robot := robot.map (·.declarations)
  mechanisms := mechanisms.map fun (name, content) => (name, content.declarations)

/-- The session on a content, against the robot and the mechanisms of its workspace. -/
def openSession (store : σ) (module : Module) (content : ModuleContent)
    (robot : Option ModuleContent) : Except EditorError Session := do
  let mechanisms ← fromStore (fetchMechanisms store module.workspace module.path)
  (Session.load content.blocks (scopeOf robot mechanisms) .standard).mapError .graph

/-- The content of the robot of a workspace, if it has one. -/
def fetchRobot (store : σ) (workspace : String) : Except EditorError (Option String) :=
  fromStore (ModuleStore.fetchOptional store (ModulePath.robot workspace).text)

/-! Opening and closing. -/

/-- The module under a path, opened against its workspace. -/
def openModule (store : σ) (path : String) : Except EditorError OpenModule := do
  let parts ← fromStore (parsePath path)
  let text ← fromStore (ModuleStore.fetch store path)
  let robotText ← fetchRobot store parts.workspace
  let entries ← fromStore (ModuleStore.entries store)
  let some entry := entries.find? fun entry => entry.path = path
    | throw (.store (.notFound path))
  let module : Module := ⟨path, entry.type, parts.module, parts.workspace, entry.modified⟩
  let content ← parseContent text
  let robot ← match robotText with
    | some robotText =>
      if module.type = .robot then pure none else some <$> parseContent robotText
    | none => pure none
  let session ← openSession store module content robot
  return { module, session, savedText := text, robot }

/-- Opens a module in place of the open one, which stays open when this fails. -/
def load (editor : Editor σ) (path : String) : Except EditorError (OpenModule × Editor σ) := do
  let opened ← openModule editor.store path
  return (opened, { editor with current := some opened })

def close (editor : Editor σ) : Editor σ := { editor with current := none }

/-- The open module, or the refusal that none is open. -/
def getOpen (editor : Editor σ) : Except EditorError OpenModule :=
  match editor.current with
  | some opened => .ok opened
  | none => .error .noOpenModule

/-- Puts an edited session in place of the open one. -/
def withSession (editor : Editor σ) (session : Session) : Editor σ :=
  { editor with current := editor.current.map fun opened => { opened with session } }

/-! Content and code. -/

/-- The code of the open module. -/
def generate (editor : Editor σ) : Except EditorError Code.Generated := do
  let opened ← editor.getOpen
  opened.session.generate opened.module.type opened.module.name editor.options

/-- The text that saving would store. -/
def contentText (editor : Editor σ) : Except EditorError String := do
  let opened ← editor.getOpen
  opened.session.contentText opened.module.type opened.module.name editor.options

/-- Whether saving would store another text than the one stored last. -/
def isModified (editor : Editor σ) : Except EditorError Bool := do
  let opened ← editor.getOpen
  return (← editor.contentText) ≠ opened.savedText

/-! Saving. -/

/-- The text that a module gets when it is opened against its workspace as it is now; none if its
stored text is unreadable. -/
def refreshed (options : Code.Options) (store : σ) (module : Module) (text : String)
    (robot : Option ModuleContent) : Except EditorError (Option String) :=
  match ModuleContent.parse text with
  | .error _ => .ok none
  | .ok content => do
    let session ← openSession store module content (if module.type = .robot then none else robot)
    some <$> session.contentText module.type module.name options

/-- Brings one module in line with its workspace; says whether its text changed. -/
def syncModule (options : Code.Options) (store : σ) (module : Module)
    (robot : Option ModuleContent) : Except EditorError (Bool × σ) := do
  let text ← fromStore (ModuleStore.fetch store module.path)
  match ← refreshed options store module text robot with
  | none => return (false, store)
  | some newText =>
    if newText = text then return (false, store)
    return (true, ← fromStore (ModuleStore.save store module.path newText))

/-- Brings modules in line one after the other and gives the paths of those that changed. The
first failure ends the round and keeps what was stored before it. -/
def syncEach (options : Code.Options) (robot : Option ModuleContent) :
    σ → List Module → Except EditorError (List String) × σ
  | store, [] => (.ok [], store)
  | store, module :: rest =>
    match syncModule options store module robot with
    | .error error => (.error error, store)
    | .ok (changed, store) =>
      let (paths, store) := syncEach options robot store rest
      (paths.map fun paths => if changed then module.path :: paths else paths, store)

/-- Brings the other modules of the workspace in line after one of them was saved. -/
def syncDependents (options : Code.Options) (store : σ) (saved : Module) :
    Except EditorError (List String) × σ :=
  let prepared : Except EditorError (List Module × Option ModuleContent) := do
    let entries ← fromStore (ModuleStore.entries store)
    let robot ← match ← fetchRobot store saved.workspace with
      | some text => some <$> parseContent text
      | none => pure none
    let others := (entries.filterMap (·.module?)).filter fun module =>
      module.path ≠ saved.path && module.workspace = saved.workspace
    return (others, robot)
  match prepared with
  | .error error => (.error error, store)
  | .ok (others, robot) => syncEach options robot store others

/-- Saves the open module and gives the paths of the modules that followed it. If the module
itself cannot be stored nothing changes; if a module that follows cannot be, the ones stored before
it stay stored. -/
def save (editor : Editor σ) : Except EditorError (List String) × Editor σ :=
  let stored : Except EditorError (OpenModule × String × σ) := do
    let text ← editor.contentText
    let opened ← editor.getOpen
    return (opened, text, ← fromStore (ModuleStore.save editor.store opened.module.path text))
  match stored with
  | .error error => (.error error, editor)
  | .ok (opened, text, store) =>
    let editor :=
      { editor with store, current := some { opened with savedText := text } }
    if opened.module.type.exports then
      let (paths, store) := syncDependents editor.options editor.store opened.module
      (paths, { editor with store })
    else (.ok [], editor)

/-! Declarations of the robot. -/

/-- What the robot of the workspace declares. An open robot shows all that its graph declares now;
otherwise these are the exported declarations fetched with the open module. -/
def robotDeclarations (editor : Editor σ) : Except EditorError Declarations := do
  let opened ← editor.getOpen
  if opened.module.type = .robot then return opened.session.declarations
  match opened.robot with
  | some robot => return robot.declarations
  | none => throw (.robotUnavailable opened.module.workspace)

/-! Creating, moving and deleting modules. -/

/-- Creates a module with its starter blocks. -/
def create (editor : Editor σ) (type : ModuleType) (path : ModulePath) :
    Except EditorError (String × Editor σ) := do
  match [path.workspace, path.module].find? fun name => !isValidName name with
  | some name => throw (.invalidName name)
  | none =>
    let session ← Session.starter type path.module
    let text ← session.contentText type path.module editor.options
    let store ← fromStore (ModuleStore.create editor.store type path.text text)
    return (path.text, { editor with store })

/-- Creates a workspace that holds a new robot. -/
def createProject (editor : Editor σ) (name : String) : Except EditorError (String × Editor σ) :=
  editor.create .robot (.robot name)

/-- Creates a mechanism or an opmode in a workspace that has a robot. -/
def createModule (editor : Editor σ) (workspace name : String) (type : ModuleType) :
    Except EditorError (String × Editor σ) := do
  if type = .robot || type = .unknown then throw (.invalidType type)
  let robot := (ModulePath.robot workspace).text
  if !(← fromStore (ModuleStore.contains editor.store robot)) then
    throw (.store (.notFound robot))
  editor.create type ⟨workspace, name⟩

/-- The parts of a path that is not the path of a robot. -/
def parseMovable (path : String) : Except EditorError ModulePath := do
  let parts ← fromStore (parsePath path)
  if parts.module = parts.workspace then throw (.isRobot path)
  return parts

def closeIfOpen (editor : Editor σ) (path : String) : Editor σ :=
  if editor.current.any fun opened => opened.module.path = path then editor.close else editor

/-- Renames or copies a mechanism or an opmode within its workspace and gives the new path. An open
module that is renamed is closed. -/
def moveModule (editor : Editor σ) (path newName : String) (copy : Bool) :
    Except EditorError (String × Editor σ) := do
  let parts ← parseMovable path
  if !isValidName newName then throw (.invalidName newName)
  let target := ModulePath.text ⟨parts.workspace, newName⟩
  let store ← fromStore (ModuleStore.moveModule editor.store path target copy)
  let moved := { editor with store }
  return (target, if copy then moved else moved.closeIfOpen path)

/-- Deletes a mechanism or an opmode and closes it if it is open. -/
def deleteModule (editor : Editor σ) (path : String) : Except EditorError (Editor σ) := do
  let _ ← parseMovable path
  let store ← fromStore (ModuleStore.delete editor.store path)
  return closeIfOpen { editor with store } path

end Editor
end RobotBlocks
