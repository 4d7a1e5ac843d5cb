import RobotBlocks.Store.Database
import RobotBlocks.Store.Location

/-! Disks that keep databases in files. -/
namespace RobotBlocks

/-- The databases by the texts of their paths, and the directories that can hold more. -/
structure Disk where
  directories : List DiskPath
  files : Labelled Database := []
  deriving DecidableEq, Repr

namespace Disk

/-- The database of a file. A missing one is made where the mode and the directory allow it. -/
def openFile (disk : Disk) (name : String) (path : DiskPath) (mode : AccessMode) :
    Except OpenError Database :=
  if disk.directories.contains path then .error (.missing name)
  else
    match disk.files.get? path.text with
    | some db => .ok db
    | none =>
      if mode = .create && disk.directories.contains path.parent then .ok {}
      else .error (.missing name)

/-- The database at the location that a name stands for. A database that no file keeps is new, so
it cannot be opened for reading only. -/
def openAt (disk : Disk) (name : String) (location : Location) : Except OpenError Database :=
  match location.file with
  | some path => disk.openFile name path location.mode
  | none => if location.mode = .readOnly then .error .readOnly else .ok {}

/-- The disk after a database was used at a location. -/
def keep (disk : Disk) (location : Location) (db : Database) : Disk :=
  match location.file with
  | some path => { disk with files := disk.files.put path.text db }
  | none => disk

end Disk
end RobotBlocks
