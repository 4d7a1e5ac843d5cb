import RobotBlocks.CommandLine
import RobotBlocks.Store.Codec

/-! The program: reads the database file that the arguments name, runs them and writes the file
back. -/
namespace RobotBlocks

def environmentConfig : IO Config := do
  let database ← IO.getEnv Config.databaseVariable
  let indent ← IO.getEnv Config.indentVariable
  return .ofVariables fun name => if name = Config.databaseVariable then database else indent

/-- The file that arguments name, if they ask for a command. -/
def fileOf? (environment : Config) (arguments : List String) : Option DiskPath :=
  match CommandLine.parse arguments with
  | .error _ => none
  | .ok invocation =>
    match Location.ofName (invocation.config environment).databaseName with
    | .error _ => none
    | .ok location => location.file

/-- The disk as far as one file goes. A file that cannot be read counts as missing. -/
def readDisk (path : DiskPath) : IO (Except OpenError Disk) := do
  let disk : Disk := { directories := [path.parent] }
  match ← (IO.FS.readFile path.text).toBaseIO with
  | .error _ => return .ok disk
  | .ok text =>
    match Database.parse? text with
    | none => return .error .notDatabase
    | some db => return .ok { disk with files := [(path.text, db)] }

/-- Runs arguments on the file that they name. -/
def runOnFile (environment : Config) (arguments : List String) (path : DiskPath) :
    IO CommandLine.Outcome := do
  match ← readDisk path with
  | .error error => return CommandLine.openFailure path.text error
  | .ok disk =>
    let (outcome, after) := CommandLine.runOn environment disk arguments
    match after.files.get? path.text with
    | none => return outcome
    | some db =>
      match ← (IO.FS.writeFile path.text db.text).toBaseIO with
      | .ok _ => return outcome
      | .error _ => return CommandLine.openFailure path.text (.missing path.text)

def runProgram (arguments : List String) : IO UInt32 := do
  let environment ← environmentConfig
  let outcome ← match fileOf? environment arguments with
    | none => pure (CommandLine.runOn environment { directories := [] } arguments).1
    | some path => runOnFile environment arguments path
  IO.print outcome.output
  IO.eprint outcome.errors
  return outcome.code.toUInt32

end RobotBlocks

def main (arguments : List String) : IO UInt32 := RobotBlocks.runProgram arguments
