import RobotBlocks.Store.Basic

/-! A store in memory: a map from paths to modules, in ascending order of the paths. It can be made
unavailable; then every operation that reaches it fails. -/
namespace RobotBlocks

structure StoredModule where
  type : ModuleType
  text : String
  modified : Int
  deriving DecidableEq, Repr

structure Shelf where
  modules : List (String × StoredModule) := []
  values : Labelled String := []
  available : Bool := true
  /-- The time with which writes are marked. -/
  clock : Int := 0
  deriving DecidableEq, Repr

namespace Shelf

/-- Puts a module at the place of its path, over one that is there. -/
def insertModule (path : String) (module : StoredModule) :
    List (String × StoredModule) → List (String × StoredModule)
  | [] => [(path, module)]
  | (other, old) :: rest =>
    if path = other then (path, module) :: rest
    else if path < other then (path, module) :: (other, old) :: rest
    else (other, old) :: insertModule path module rest

def put (shelf : Shelf) (path : String) (module : StoredModule) : Shelf :=
  { shelf with modules := insertModule path module shelf.modules }

def erase (shelf : Shelf) (path : String) : Shelf :=
  { shelf with modules := shelf.modules.filter fun (other, _) => other ≠ path }

def module? (shelf : Shelf) (path : String) : Option StoredModule := shelf.modules.lookup path

/-- The shelf, if it is available. -/
def open? (shelf : Shelf) : Except StoreError Shelf :=
  if shelf.available then .ok shelf else .error .unavailable

/-- The module under a path, or the refusal that there is none. -/
def get (shelf : Shelf) (path : String) : Except StoreError StoredModule :=
  match shelf.module? path with
  | some module => .ok module
  | none => .error (.notFound path)

def ensureFree (shelf : Shelf) (path : String) : Except StoreError Unit :=
  if (shelf.module? path).isSome then .error (.alreadyExists path) else .ok ()

/-- All modules without their texts. -/
def list (shelf : Shelf) : List ModuleEntry :=
  shelf.modules.map fun (path, module) => ⟨path, module.type, module.modified⟩

/-- Carries one module to a new path and, unless it is copied, away from the old one. -/
def carry (copy : Bool) (shelf : Shelf) (move : String × String) : Except StoreError Shelf := do
  let (source, target) := move
  let module ← shelf.get source
  let shelf := shelf.put target { module with modified := shelf.clock }
  return if copy then shelf else shelf.erase source

instance : ModuleStore Shelf where
  entries shelf := do return (← shelf.open?).list
  fetch shelf path := do return (← (← shelf.open?).get path).text
  create shelf type path text := do
    let _ ← parsePath path
    let shelf ← shelf.open?
    shelf.ensureFree path
    return shelf.put path ⟨type, text, shelf.clock⟩
  save shelf path text := do
    let shelf ← shelf.open?
    let module ← shelf.get path
    return shelf.put path { module with text, modified := shelf.clock }
  delete shelf path := do
    let shelf ← shelf.open?
    let _ ← shelf.get path
    return shelf.erase path
  moveModule shelf source target copy := do
    let _ ← parsePath target
    let shelf ← shelf.open?
    let _ ← shelf.get source
    shelf.ensureFree target
    shelf.carry copy (source, target)
  moveWorkspace shelf oldName newName copy := do
    let shelf ← shelf.open?
    let moves ← planWorkspaceMove shelf.list oldName newName
    moves.foldlM (carry copy) shelf
  deleteWorkspace shelf name := do
    let shelf ← shelf.open?
    let kept := shelf.modules.filter fun (path, _) =>
      !(ModulePath.ofText? path).any fun path => path.workspace = name
    if kept.length = shelf.modules.length then throw (.notFound name)
    return { shelf with modules := kept }
  fetchValue shelf key default := do return ((← shelf.open?).values.get? key).getD default
  saveValue shelf key value := do
    let shelf ← shelf.open?
    return { shelf with values := shelf.values.put key value }

end Shelf
end RobotBlocks
