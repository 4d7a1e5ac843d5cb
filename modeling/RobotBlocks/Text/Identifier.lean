import RobotBlocks.Text.Blank

/-! Identifiers made from display names. Letters and digits are the ASCII ones: every other
character of a name becomes an underscore in an identifier and a word boundary in a class name. -/
namespace RobotBlocks.Text

/-- A character that may follow the first one of an identifier. -/
def isWordChar (c : Char) : Bool := c.isAlphanum || c == '_'

/-- An identifier starts with no digit and is not empty. -/
def guardStart : List Char → List Char
  | [] => ['_']
  | c :: cs => if c.isDigit then '_' :: c :: cs else c :: cs

def identifierChars (cs : List Char) : List Char :=
  guardStart ((trimChars cs).map fun c => if isWordChar c then c else '_')

/-- The identifier under which a display name appears in a class. -/
def identifier (name : String) : String := String.ofList (identifierChars name.toList)

/-- Joins the words of a name, each with a capital first letter. The flag says that the next
letter or digit starts a word. -/
def joinWords : Bool → List Char → List Char
  | _, [] => []
  | start, c :: cs =>
    if c.isAlphanum then (if start then c.toUpper else c) :: joinWords false cs
    else joinWords true cs

/-- The class name of a module name; a name without letters and digits gives `Module`. -/
def className (name : String) : String :=
  match joinWords true name.toList with
  | [] => "Module"
  | cs => String.ofList (guardStart cs)

end RobotBlocks.Text
