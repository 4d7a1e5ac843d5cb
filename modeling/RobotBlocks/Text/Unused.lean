/-! Numbered names. Of a row of distinct candidates, one more than there are used names is enough
to meet one that is not used. -/
namespace RobotBlocks.Text

/-- The first candidate from `n` on that is not used; after so many tries the next one is taken. -/
def firstUnused (candidate : Nat → String) (used : List String) : Nat → Nat → String
  | 0, n => candidate n
  | tries + 1, n =>
    if used.contains (candidate n) then firstUnused candidate used tries (n + 1) else candidate n

end RobotBlocks.Text
