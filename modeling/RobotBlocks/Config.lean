import RobotBlocks.Decimal
import RobotBlocks.Code.Generator

/-! Settings from the environment. A setting that cannot be read counts as absent. -/
namespace RobotBlocks

structure Config where
  databaseName : String := "blockbot.db"
  indent : Nat := 4
  deriving DecidableEq, Repr

namespace Config

def databaseVariable : String := "BLOCKBOT_DB_PATH"
def indentVariable : String := "BLOCKBOT_INDENT"

/-- A count of 64 bits: digits with an optional plus sign. -/
def parseCount? (text : String) : Option Nat :=
  let digits := match text.toList with
    | '+' :: digits => digits
    | digits => digits
  if !digits.isEmpty && digits.all Char.isDigit && Decimal.ofDigits digits < Nat.pow 2 64
  then some (Decimal.ofDigits digits) else none

/-- The settings that variables give. -/
def ofVariables (lookup : String → Option String) : Config :=
  let fallback : Config := {}
  { databaseName := (lookup databaseVariable).getD fallback.databaseName
    indent := ((lookup indentVariable).bind fun text => parseCount? (Text.trim text)).getD
      fallback.indent }

def options (config : Config) : Code.Options := { indent := config.indent }

end Config
end RobotBlocks
