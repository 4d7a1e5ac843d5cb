import RobotBlocks.Module.Content
import RobotBlocks.Module.Path

/-! Stores of modules. A store keeps content texts under paths, with a type and a time of change,
and small values under keys. It never looks into the texts. -/
namespace RobotBlocks

inductive StoreError where
  | notFound (path : String)
  | alreadyExists (path : String)
  | unavailable
  | invalidPath (path : String)
  | content (error : ContentError)
  /-- A stored type that is none. -/
  | badType (text : String)
  /-- A row that breaks a constraint of its table. -/
  | database
  deriving DecidableEq, Repr

def StoreError.message : StoreError → String
  | .notFound path => "not found: " ++ path
  | .alreadyExists path => "already exists: " ++ path
  | .unavailable => "storage unavailable"
  | .invalidPath path => "invalid module path: '" ++ path ++ "'"
  | .content error => error.message
  | .badType text => "invalid module content: " ++ ModuleType.refusal text
  | .database => "database error"

/-- The parts of a path, or the refusal of the path. -/
def parsePath (path : String) : Except StoreError ModulePath :=
  match ModulePath.ofText? path with
  | some parts => .ok parts
  | none => .error (.invalidPath path)

/-- A module of a workspace. -/
structure Module where
  path : String
  type : ModuleType
  name : String
  workspace : String
  /-- Milliseconds since the epoch. -/
  modified : Int := 0
  deriving DecidableEq, Repr

/-- A stored module without its text. -/
structure ModuleEntry where
  path : String
  type : ModuleType
  modified : Int := 0
  deriving DecidableEq, Repr

namespace ModuleEntry

/-- The module of an entry, named by its path. -/
def module? (entry : ModuleEntry) : Option Module :=
  (ModulePath.ofText? entry.path).map fun path =>
    ⟨entry.path, entry.type, path.module, path.workspace, entry.modified⟩

/-- Whether the path of an entry belongs to a workspace. -/
def isIn (entry : ModuleEntry) (workspace : String) : Bool :=
  (ModulePath.ofText? entry.path).any fun path => path.workspace = workspace

end ModuleEntry

/-- What every store does. A refused write leaves the store as it is. -/
class ModuleStore (σ : Type) where
  /-- All modules, in ascending order of their paths. -/
  entries : σ → Except StoreError (List ModuleEntry)
  fetch : σ → String → Except StoreError String
  /-- Stores a new module under a free path. -/
  create : σ → ModuleType → String → String → Except StoreError σ
  /-- Replaces the text of a module. -/
  save : σ → String → String → Except StoreError σ
  delete : σ → String → Except StoreError σ
  /-- Moves a module to a free path, or copies it there. -/
  moveModule : σ → String → String → Bool → Except StoreError σ
  /-- Moves all modules of a workspace under a new name, or copies them, all or none. -/
  moveWorkspace : σ → String → String → Bool → Except StoreError σ
  deleteWorkspace : σ → String → Except StoreError σ
  /-- The value under a key, or a default. -/
  fetchValue : σ → String → String → Except StoreError String
  saveValue : σ → String → String → Except StoreError σ

namespace ModuleStore

/-- The text under a path; a missing module is no error. -/
def fetchOptional {σ : Type} [ModuleStore σ] (store : σ) (path : String) :
    Except StoreError (Option String) :=
  match fetch store path with
  | .ok text => .ok (some text)
  | .error (.notFound _) => .ok none
  | .error error => .error error

def contains {σ : Type} [ModuleStore σ] (store : σ) (path : String) : Except StoreError Bool :=
  Option.isSome <$> fetchOptional store path

end ModuleStore

/-! Moving workspaces. -/

/-- Where a module of a workspace lands under a new name: the robot bears the name of the
workspace, every other module keeps its own. -/
def landing (entry : ModuleEntry) (path : ModulePath) (newName : String) : String :=
  if entry.type = .robot then (ModulePath.robot newName).text
  else ModulePath.text ⟨newName, path.module⟩

/-- The old and new paths of the modules of a workspace, in the order of the entries. Two modules
must not land on one path. -/
def landings (oldName newName : String) :
    List ModuleEntry → List (String × String) → Except StoreError (List (String × String))
  | [], moves => .ok moves
  | entry :: rest, moves =>
    match ModulePath.ofText? entry.path with
    | none => landings oldName newName rest moves
    | some path =>
      if path.workspace ≠ oldName then landings oldName newName rest moves
      else
        let target := landing entry path newName
        if moves.any fun (_, taken) => taken = target then .error (.alreadyExists target)
        else landings oldName newName rest (moves ++ [(entry.path, target)])

/-- The moves that carry a workspace to a new name: the name must be valid, the workspace must have
modules and their new paths must be free. -/
def planWorkspaceMove (entries : List ModuleEntry) (oldName newName : String) :
    Except StoreError (List (String × String)) := do
  if !isValidName newName then throw (.invalidPath newName)
  let moves ← landings oldName newName entries []
  if moves.isEmpty then throw (.notFound oldName)
  match moves.find? fun (_, target) => entries.any fun entry => entry.path = target with
  | some (_, taken) => throw (.alreadyExists taken)
  | none => return moves

end RobotBlocks
