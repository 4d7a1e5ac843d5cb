import RobotBlocks.Text.Percent
import RobotBlocks.Text.Separated

/-! Where a database is kept and what may be done to it, as its name says. A name is a path, or a
locator `file:path?settings`. The path that is empty and the path `:memory:` stand for a database
that no file keeps. -/
namespace RobotBlocks

/-- The names on the way from the root or from the working directory. -/
structure DiskPath where
  absolute : Bool
  names : List String
  deriving DecidableEq, Repr

namespace DiskPath

/-- One name further. An empty name and `.` stay, and `..` goes up unless nothing is left to go up
from. -/
def step (path : DiskPath) (name : String) : DiskPath :=
  if name = "" || name = "." then path
  else if name = ".." then
    match path.names.getLast? with
    | none => if path.absolute then path else { path with names := [".."] }
    | some ".." => { path with names := path.names ++ [".."] }
    | some _ => { path with names := path.names.dropLast }
  else { path with names := path.names ++ [name] }

def ofText (text : String) : DiskPath :=
  (Text.Separated.split '/' text.toList).foldl (fun path name => path.step (String.ofList name))
    ⟨text.toList.head? = some '/', []⟩

def text (path : DiskPath) : String :=
  (if path.absolute then "/" else "") ++ "/".intercalate path.names

/-- The directory of a path. -/
def parent (path : DiskPath) : DiskPath := path.step ".."

end DiskPath

/-- How a database is used. -/
inductive AccessMode where
  | readOnly
  | readWrite
  /-- A missing file is created. -/
  | create
  /-- No file is used. -/
  | memory
  deriving DecidableEq, Repr

namespace AccessMode

def ofName? : String → Option AccessMode
  | "ro" => some .readOnly
  | "rw" => some .readWrite
  | "rwc" => some .create
  | "memory" => some .memory
  | _ => none

/-- A mode with a greater rank allows more. -/
def rank : AccessMode → Nat
  | .readOnly => 1
  | .readWrite => 2
  | .create => 3
  | .memory => 4

/-- Whether a later setting may replace a mode: it must not allow more, and to use no file is
always allowed. -/
def admits (mode later : AccessMode) : Bool := later = .memory || later.rank ≤ mode.rank

end AccessMode

/-- Why a database cannot be opened. -/
inductive OpenError where
  | authority (text : String)
  | accessMode (text : String)
  | accessDenied (text : String)
  | cacheMode (text : String)
  | driver (name : String)
  | missing (name : String)
  | notDatabase
  | readOnly
  deriving DecidableEq, Repr

def OpenError.message : OpenError → String
  | .authority text => "invalid uri authority: " ++ text
  | .accessMode text => "no such access mode: " ++ text
  | .accessDenied text => "access mode not allowed: " ++ text
  | .cacheMode text => "no such cache mode: " ++ text
  | .driver name => "no such vfs: " ++ name
  | .missing name => "unable to open database file: " ++ name
  | .notDatabase => "file is not a database"
  | .readOnly => "attempt to write a readonly database"

/-- A database that a file keeps, or one that is empty at the start of every run. -/
structure Location where
  file : Option DiskPath
  mode : AccessMode := .create
  deriving DecidableEq, Repr

namespace Location

def ofPath (path : String) : Location where
  file := if path = "" || path = ":memory:" then none else some (.ofText path)

/-- The rest of a locator behind its authority, which can only be the own host. -/
def dropAuthority : List Char → Except OpenError (List Char)
  | '/' :: '/' :: rest =>
    let (authority, rest) := rest.span (· ≠ '/')
    let authority := String.ofList authority
    if authority = "" || authority = "localhost" then .ok rest else .error (.authority authority)
  | text => .ok text

/-- The settings of a locator in order. One without a name is ignored, one without a value has the
empty value. -/
def settings (query : List Char) : List (String × String) :=
  (Text.Separated.split '&' query).filterMap fun setting =>
    let (name, value) := setting.span (· ≠ '=')
    let name := Text.Percent.decodeText name
    if name = "" then none else some (name, Text.Percent.decodeText (value.drop 1))

def fileDrivers : List String := ["unix", "unix-none", "unix-dotfile", "unix-excl"]

def memoryDriver : String := "memdb"

/-- The mode and the driver that settings give. -/
def applySetting : AccessMode × Option String → String × String →
    Except OpenError (AccessMode × Option String)
  | (mode, driver), (name, value) =>
    match name with
    | "vfs" => .ok (mode, some value)
    | "cache" =>
      if value = "shared" || value = "private" then .ok (mode, driver)
      else .error (.cacheMode value)
    | "mode" =>
      match AccessMode.ofName? value with
      | none => .error (.accessMode value)
      | some later => if mode.admits later then .ok (later, driver) else .error (.accessDenied value)
    | _ => .ok (mode, driver)

/-- The location that a locator names, less its scheme. -/
def ofLocator (text : List Char) : Except OpenError Location := do
  let text := (← dropAuthority text).takeWhile (· ≠ '#')
  let (path, query) := text.span (· ≠ '?')
  let (mode, driver) ← (settings (query.drop 1)).foldlM applySetting (.create, none)
  let known := driver.all fun name => name = memoryDriver || fileDrivers.contains name
  unless known do throw (.driver (driver.getD ""))
  if mode = .memory then return { file := none }
  if driver = some memoryDriver then return { file := none, mode }
  return { ofPath (Text.Percent.decodeText path) with mode }

/-- The location that a name stands for. -/
def ofName (name : String) : Except OpenError Location :=
  match name.toList with
  | 'f' :: 'i' :: 'l' :: 'e' :: ':' :: text => ofLocator text
  | _ => .ok (ofPath name)

example : (ofName "file::memory:").toOption = some { file := none } := by decide +kernel
example : (ofName "file:a/../b%20c?mode=rw#d").toOption =
    some { file := some ⟨false, ["b c"]⟩, mode := .readWrite } := by decide +kernel
example : (ofName "file://host/a").toOption = none := by decide +kernel
example : (ofName "a?mode=ro").toOption = some { file := some ⟨false, ["a?mode=ro"]⟩ } := by
  decide +kernel

end Location
end RobotBlocks
