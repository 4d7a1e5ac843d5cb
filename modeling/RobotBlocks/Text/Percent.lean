import RobotBlocks.Text.Hexadecimal

/-! Percent escapes. A percent sign and two hexadecimal digits stand for one byte; every other
character stands for its own bytes. -/
namespace RobotBlocks.Text.Percent

/-- The bytes that a text stands for. A byte of zero ends them. -/
def decode : List Char → List UInt8
  | '%' :: a :: b :: rest =>
    match hexDigit? a, hexDigit? b with
    | some 0, some 0 => []
    | some high, some low => .ofNat (16 * high + low) :: decode rest
    | _, _ => String.utf8EncodeChar '%' ++ decode (a :: b :: rest)
  | c :: rest => String.utf8EncodeChar c ++ decode rest
  | [] => []

/-- The text that a text stands for; one that stands for no text stands for itself. -/
def decodeText (cs : List Char) : String :=
  (String.fromUTF8? ⟨(decode cs).toArray⟩).getD (String.ofList cs)

end RobotBlocks.Text.Percent
