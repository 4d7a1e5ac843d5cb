/-! Texts in parts with a separator between any two. -/
namespace RobotBlocks.Text.Separated

/-- The parts of a text. There is always at least one. -/
def split (separator : Char) : List Char → List (List Char)
  | [] => [[]]
  | c :: rest =>
    if c = separator then [] :: split separator rest
    else
      match split separator rest with
      | [] => [[c]]
      | part :: parts => (c :: part) :: parts

end RobotBlocks.Text.Separated
