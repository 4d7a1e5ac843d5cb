import RobotBlocks.Text.Identifier

/-! Paths of modules. A module lives at `<workspace>/<module>.blk`; the robot of a workspace bears
the name of the workspace. -/
namespace RobotBlocks

/-- Names are a letter and then letters, digits and underscores, all of them ASCII. -/
def isValidName (name : String) : Bool :=
  match name.toList with
  | [] => false
  | c :: cs => c.isAlpha && cs.all Text.isWordChar

/-- The workspace of a module and its name there. -/
structure ModulePath where
  workspace : String
  module : String
  deriving DecidableEq, Repr

namespace ModulePath

def extension : String := ".blk"

def text (path : ModulePath) : String := path.workspace ++ "/" ++ path.module ++ extension

def robot (workspace : String) : ModulePath := ⟨workspace, workspace⟩

/-- Splits at the first slash and cuts off one extension; both parts must be valid names. -/
def ofText? (text : String) : Option ModulePath :=
  let (workspace, rest) := text.toList.span (· ≠ '/')
  match rest with
  | [] => none
  | _ :: file =>
    let stem := file.length - extension.length
    if file.drop stem = extension.toList then
      let path : ModulePath := ⟨String.ofList workspace, String.ofList (file.take stem)⟩
      if isValidName path.workspace && isValidName path.module then some path else none
    else none

end ModulePath
end RobotBlocks
