import RobotBlocks.Store.Database

/-! Stored text of a database. -/
namespace RobotBlocks

open Json Decoder

namespace ModuleRow

def encode (row : ModuleRow) : Value :=
  .array [.ofString row.path, .ofString row.type, .ofString row.text]

def decode : Decoder ModuleRow :=
  record ["path", "type", "text"] fun level slots => match slots with
    | [path, type, text] => do
      return { path := ← required string level path
               type := ← required string level type
               text := ← required string level text
               modified := 0 }
    | _ => none

end ModuleRow

namespace Database

def encode (db : Database) : Value :=
  .ofMembers [("modules", some (.array (db.modules.map ModuleRow.encode))),
    ("values", some (db.values.encode .ofString))]

def decode : Decoder Database :=
  record ["modules", "values"] fun level slots => match slots with
    | [modules, values] => do
      return { modules := ← required (Decoder.list ModuleRow.decode) level modules
               values := ← required (Labelled.decode string) level values }
    | _ => none

def text (db : Database) : String := db.encode.indented

/-- The database that a text holds. -/
def parse? (text : String) : Option Database := (Value.parse? text).bind (decode levels)

end Database
end RobotBlocks
