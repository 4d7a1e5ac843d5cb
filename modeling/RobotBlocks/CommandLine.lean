import RobotBlocks.CommandLine.Arguments
import RobotBlocks.Editor
import RobotBlocks.Store.Disk
import RobotBlocks.Store.Projects

/-! The command line: what a command does to a store and writes, and what arguments do to a disk.
Exit codes are 0 for success, 1 for a refused request, 2 for a usage error or a module with
problems, and 3 for a failing store. -/
namespace RobotBlocks.CommandLine

/-- What a run writes and its exit code. -/
structure Outcome where
  code : Nat := 0
  output : String := ""
  errors : String := ""
  deriving DecidableEq, Repr

/-- The text of lines that each end in a line break. -/
def textOfLines (lines : List String) : String :=
  String.join (lines.map fun line => line ++ "\n")

/-- Help is what was asked for; all other arguments that give no command are a mistake. -/
def Refusal.outcome : Refusal → Outcome
  | .usage =>
    { code := 2
      errors := textOfLines ["Usage: " ++ programPage.usage, "",
        "For more information, try '--help'."] }
  | .help page => { output := textOfLines page.lines }

/-- A module that is missing or in the way is the mistake of the caller, as is a path of another
form; all else is a failing store. -/
def storeCode : StoreError → Nat
  | .notFound _ | .alreadyExists _ | .invalidPath _ => 1
  | .unavailable | .content _ | .badType _ | .database => 3

def failure (code : Nat) (message : String) : Outcome :=
  { code, errors := textOfLines ["Error: " ++ message] }

def storeFailure (error : StoreError) : Outcome := failure (storeCode error) error.message

def openFailure (name : String) (error : OpenError) : Outcome :=
  failure 3 ("failed to open database '" ++ name ++ "': database error: " ++ error.message)

def editorFailure : EditorError → Outcome
  | .store error => storeFailure error
  | error => failure 1 error.message

/-- The column of a module type, ten characters wide. -/
def typeColumn (type : ModuleType) : String :=
  type.name ++ String.ofList (List.replicate (10 - type.name.length) ' ')

def projectLines (project : Project) : List String :=
  project.name :: project.modules.map fun module => "  " ++ typeColumn module.type ++ " " ++ module.path

def listing (projects : List Project) : List String :=
  if projects.isEmpty then ["no projects"] else projects.flatMap projectLines

def warningLine (warning : BlockId × String) : String :=
  "warning: block " ++ warning.1.label ++ ": " ++ warning.2

/-- What checking a module reports: every warning, every diagnostic and the verdict. -/
def checkOutcome (path : String) (warnings : List (BlockId × String))
    (diagnostics : List Code.Diagnostic) : Outcome :=
  let problems := warnings.map warningLine ++ diagnostics.map (·.text)
  if problems.isEmpty then { output := textOfLines [path ++ ": ok"] }
  else
    { code := 2
      output := textOfLines
        (problems ++ [path ++ ": " ++ toString problems.length ++ " problem(s)"]) }

variable {σ : Type} [ModuleStore σ]

/-- The outcome of an editor operation that writes a path. -/
def withPath (editor : Editor σ) : Except EditorError (String × Editor σ) → Outcome × σ
  | .error error => (editorFailure error, editor.store)
  | .ok (path, editor) => ({ output := textOfLines [path] }, editor.store)

/-- The outcome of a store operation that writes nothing. -/
def withStore (store : σ) : Except StoreError σ → Outcome × σ
  | .error error => (storeFailure error, store)
  | .ok store => ({}, store)

/-- The open module of a path and its code. -/
def loadAndGenerate (editor : Editor σ) (path : String) :
    Except EditorError (OpenModule × Code.Generated) := do
  let (opened, editor) ← editor.load path
  return (opened, ← editor.generate)

def run (config : Config) (store : σ) (command : Command) : Outcome × σ :=
  let editor : Editor σ := { store, options := config.options }
  match command with
  | .list =>
    match ModuleStore.projects store with
    | .error error => (storeFailure error, store)
    | .ok projects => ({ output := textOfLines (listing projects) }, store)
  | .newProject name => withPath editor (editor.createProject name)
  | .newModule workspace name type =>
    match ModuleType.ofName? type with
    | none => (failure 1 (ModuleType.refusal type), store)
    | some type => withPath editor (editor.createModule workspace name type)
  | .generate path =>
    match loadAndGenerate editor path with
    | .error error => (editorFailure error, store)
    | .ok (_, generated) =>
      ({ output := generated.code, errors := textOfLines (generated.diagnostics.map (·.text)) },
        store)
  | .check path =>
    match loadAndGenerate editor path with
    | .error error => (editorFailure error, store)
    | .ok (opened, generated) =>
      (checkOutcome path opened.session.warnings generated.diagnostics, store)
  | .moveModule path newName copy => withPath editor (editor.moveModule path newName copy)
  | .deleteModule path =>
    match editor.deleteModule path with
    | .error error => (editorFailure error, store)
    | .ok editor => ({}, editor.store)
  | .moveWorkspace source target copy =>
    withStore store (ModuleStore.moveWorkspace store source target copy)
  | .deleteWorkspace name => withStore store (ModuleStore.deleteWorkspace store name)

/-! Runs. -/

/-- Runs a command on the database of a location. A database that is open for reading only refuses
a change. -/
def runAt (config : Config) (disk : Disk) (location : Location) (command : Command) :
    Outcome × Disk :=
  match disk.openAt config.databaseName location with
  | .error error => (openFailure config.databaseName error, disk)
  | .ok db =>
    let (outcome, after) := run config db command
    if location.mode = .readOnly && after ≠ db then
      (failure 3 ("database error: " ++ OpenError.readOnly.message), disk)
    else (outcome, disk.keep location after)

/-- What arguments do to a disk. -/
def runOn (environment : Config) (disk : Disk) (arguments : List String) : Outcome × Disk :=
  match parse arguments with
  | .error refusal => (refusal.outcome, disk)
  | .ok invocation =>
    let config := invocation.config environment
    match Location.ofName config.databaseName with
    | .error error => (openFailure config.databaseName error, disk)
    | .ok location => runAt config disk location invocation.command

/-- Arguments that give no command leave the disk as it is. -/
theorem runOn_of_refusal {arguments : List String} {refusal : Refusal}
    (refused : parse arguments = .error refusal) (environment : Config) (disk : Disk) :
    runOn environment disk arguments = (refusal.outcome, disk) := by
  simp [runOn, refused]

/-- A run on a database that no file keeps leaves the disk as it is. -/
theorem runAt_transient (config : Config) (disk : Disk) (location : Location) (command : Command)
    (transient : location.file = none) : (runAt config disk location command).2 = disk := by
  unfold runAt
  split
  · rfl
  · dsimp only
    split
    · rfl
    · simp [Disk.keep, transient]

end RobotBlocks.CommandLine
