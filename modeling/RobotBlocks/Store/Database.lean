import RobotBlocks.Store.Basic

/-! A store in two tables, one of modules and one of values. Each table has a primary key; its rows
are read in ascending order of the key. Operations of more than one statement are transactions: if
a statement fails, none of them has happened. -/
namespace RobotBlocks

/-- A row of the module table; its type is kept as text. -/
structure ModuleRow where
  path : String
  type : String
  text : String
  modified : Int
  deriving DecidableEq, Repr

/-- The rows of the module table in the order of their primary key, the path. -/
abbrev ModuleTable := List ModuleRow

namespace ModuleTable

def select (table : ModuleTable) (path : String) : Option ModuleRow :=
  table.find? fun row => row.path = path

def holds (table : ModuleTable) (path : String) : Bool := (select table path).isSome

/-- Adds a row at the place of its key. -/
def place (row : ModuleRow) : ModuleTable → ModuleTable
  | [] => [row]
  | other :: rest => if row.path < other.path then row :: other :: rest else other :: place row rest

/-- Adds a row; a second row of one key breaks the constraint of the table. -/
def insert (table : ModuleTable) (row : ModuleRow) : Except StoreError ModuleTable :=
  if holds table row.path then .error .database else .ok (place row table)

/-- Changes the row of a key and gives the number of changed rows. -/
def update (table : ModuleTable) (path : String) (change : ModuleRow → ModuleRow) :
    Nat × ModuleTable :=
  ((table.filter fun row => row.path = path).length,
    table.map fun row => if row.path = path then change row else row)

/-- Deletes the row of a key and gives the number of deleted rows. -/
def delete (table : ModuleTable) (path : String) : Nat × ModuleTable :=
  ((table.filter fun row => row.path = path).length,
    table.filter fun row => row.path ≠ path)

end ModuleTable

structure Database where
  modules : ModuleTable := []
  values : Labelled String := []
  /-- The time with which writes are marked. -/
  clock : Int := 0
  deriving DecidableEq, Repr

namespace Database

/-- The module table after a transaction, or the failure that rolled it back. -/
def transaction (db : Database) (body : ModuleTable → Except StoreError ModuleTable) :
    Except StoreError Database := do
  return { db with modules := ← body db.modules }

def parseType (text : String) : Except StoreError ModuleType :=
  match ModuleType.ofName? text with
  | some type => .ok type
  | none => .error (.badType text)

/-- All rows without their texts. -/
def list (table : ModuleTable) : Except StoreError (List ModuleEntry) :=
  table.mapM fun row => do return ⟨row.path, ← parseType row.type, row.modified⟩

/-- Copies the row of a path to another path. -/
def copyRow (clock : Int) (table : ModuleTable) (source target : String) :
    Except StoreError ModuleTable :=
  match table.select source with
  | none => .error (.notFound source)
  | some row => table.insert { row with path := target, modified := clock }

/-- Carries one row to a new path and, unless it is copied, away from the old one. -/
def carry (clock : Int) (copy : Bool) (table : ModuleTable) (move : String × String) :
    Except StoreError ModuleTable := do
  let (source, target) := move
  let table ← copyRow clock table source target
  return if copy then table else (table.delete source).2

/-- Refuses a statement that met no row. -/
def requireRows (count : Nat) (path : String) : Except StoreError Unit :=
  if count = 0 then .error (.notFound path) else .ok ()

instance : ModuleStore Database where
  entries db := list db.modules
  fetch db path :=
    match db.modules.select path with
    | some row => .ok row.text
    | none => .error (.notFound path)
  create db type path text := do
    let _ ← parsePath path
    db.transaction fun table => do
      if table.holds path then throw (.alreadyExists path)
      table.insert ⟨path, type.name, text, db.clock⟩
  save db path text := do
    let (count, modules) := db.modules.update path fun row =>
      { row with text, modified := db.clock }
    requireRows count path
    return { db with modules }
  delete db path := do
    let (count, modules) := db.modules.delete path
    requireRows count path
    return { db with modules }
  moveModule db source target copy := do
    let _ ← parsePath target
    db.transaction fun table => do
      if !table.holds source then throw (.notFound source)
      if table.holds target then throw (.alreadyExists target)
      carry db.clock copy table (source, target)
  moveWorkspace db oldName newName copy :=
    db.transaction fun table => do
      let moves ← planWorkspaceMove (← list table) oldName newName
      moves.foldlM (carry db.clock copy) table
  deleteWorkspace db name :=
    db.transaction fun table => do
      let doomed := (← list table).filter fun entry => entry.isIn name
      if doomed.isEmpty then throw (.notFound name)
      return doomed.foldl (fun table entry => (table.delete entry.path).2) table
  fetchValue db key default := .ok ((db.values.get? key).getD default)
  saveValue db key value := .ok { db with values := db.values.put key value }

end Database
end RobotBlocks
