/-! The roles of modules in a workspace. -/
namespace RobotBlocks

inductive ModuleType where
  | robot
  | mechanism
  | opMode
  | unknown
  deriving DecidableEq, Repr, Inhabited

namespace ModuleType

def name : ModuleType → String
  | .robot => "robot"
  | .mechanism => "mechanism"
  | .opMode => "opmode"
  | .unknown => "unknown"

def ofName? : String → Option ModuleType
  | "robot" => some .robot
  | "mechanism" => some .mechanism
  | "opmode" => some .opMode
  | "unknown" => some .unknown
  | _ => none

/-- What is said about a text that names no type. -/
def refusal (text : String) : String := "unknown module type: '" ++ text ++ "'"

/-- Robots and mechanisms declare what other modules can use. -/
def exports : ModuleType → Bool
  | .robot | .mechanism => true
  | .opMode | .unknown => false

end ModuleType
end RobotBlocks
