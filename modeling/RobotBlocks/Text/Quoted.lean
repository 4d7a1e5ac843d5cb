/-! Double-quoted literals. A backslash, a double quote, a line feed, a carriage return and a tab
are written with a backslash, every other character stands for itself. -/
namespace RobotBlocks.Text

/-- The letter after the backslash, for a character that needs one. -/
def escapeLetter? : Char → Option Char
  | '\\' => some '\\'
  | '"' => some '"'
  | '\n' => some 'n'
  | '\r' => some 'r'
  | '\t' => some 't'
  | _ => none

/-- The character that a backslash and a letter stand for. -/
def escaped? : Char → Option Char
  | '\\' => some '\\'
  | '"' => some '"'
  | 'n' => some '\n'
  | 'r' => some '\r'
  | 't' => some '\t'
  | _ => none

def quoteChar (c : Char) : List Char :=
  match escapeLetter? c with
  | some letter => ['\\', letter]
  | none => [c]

/-- The text between the quotes. -/
def quoteChars (cs : List Char) : List Char := cs.flatMap quoteChar

def quoted (s : String) : String := String.ofList ('"' :: quoteChars s.toList ++ ['"'])

/-- Undoes the escapes of the text between the quotes. A backslash that starts no escape and a
bare double quote are refused. -/
def unquoteChars? : List Char → Option (List Char)
  | [] => some []
  | ['\\'] => none
  | '\\' :: letter :: rest => do
    let c ← escaped? letter
    let cs ← unquoteChars? rest
    return c :: cs
  | c :: rest => if c = '"' then none else (unquoteChars? rest).map (c :: ·)

end RobotBlocks.Text
