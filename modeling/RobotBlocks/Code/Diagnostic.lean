import RobotBlocks.Reference

/-! What generated code had to paper over. -/
namespace RobotBlocks.Code

inductive Complaint where
  /-- A handler of a library function: there is no object that sends its event. -/
  | noSender
  | noClass (component : String)
  | notStatement (kind : Kind)
  | notNumber (text : String)
  | notValue (kind : Kind)
  | wrongArity (name : String) (passed taken : Nat)
  | missing (name : String)
  deriving DecidableEq, Repr

def Complaint.message : Complaint → String
  | .noSender => "event handler has no event sender"
  | .noClass component => "component '" ++ component ++ "' has no class"
  | .notStatement kind => "a " ++ kind.title ++ " block cannot be used as a statement"
  | .notNumber text => "'" ++ text ++ "' is not a number"
  | .notValue kind => "a " ++ kind.title ++ " block does not produce a value"
  | .wrongArity name passed taken =>
    "call to '" ++ name ++ "' passes " ++ toString passed ++
      " arguments but the declaration takes " ++ toString taken
  | .missing name => missingWarning name

/-- A complaint about a block. All complaints are warnings. -/
structure Diagnostic where
  block : BlockId
  complaint : Complaint
  deriving DecidableEq, Repr

namespace Diagnostic

def severity : String := "warning"

def message (diagnostic : Diagnostic) : String := diagnostic.complaint.message

/-- How a diagnostic is shown. -/
def text (diagnostic : Diagnostic) : String :=
  severity ++ ": block " ++ diagnostic.block.label ++ ": " ++ diagnostic.message

end Diagnostic
end RobotBlocks.Code
