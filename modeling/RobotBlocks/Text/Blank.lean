/-! Blank characters and trimming. A character is blank exactly when it has the Unicode
property White_Space, so a no-break space is cut off like a tab and a zero-width space is not. -/
namespace RobotBlocks.Text

/-- The characters with the property White_Space. -/
def blanks : List Char :=
  ['\t', '\n', '\x0b', '\x0c', '\r', ' ', '\u0085', '\u00a0', '\u1680',
   '\u2000', '\u2001', '\u2002', '\u2003', '\u2004', '\u2005', '\u2006', '\u2007', '\u2008',
   '\u2009', '\u200a', '\u2028', '\u2029', '\u202f', '\u205f', '\u3000']

def isBlank (c : Char) : Bool := blanks.contains c

/-- Drops the blanks at both ends and keeps those inside. -/
def trimChars (cs : List Char) : List Char :=
  ((cs.dropWhile isBlank).reverse.dropWhile isBlank).reverse

def trim (s : String) : String := String.ofList (trimChars s.toList)

example : trim " \u00a0a b\n" = "a b" := by decide +kernel

end RobotBlocks.Text
