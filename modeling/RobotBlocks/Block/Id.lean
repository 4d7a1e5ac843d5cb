/-! Block ids. Ids are numbers of 32 bits; the allocator of a graph and the readers of stored
blocks stay within `BlockId.last`. -/
namespace RobotBlocks

structure BlockId where
  number : Nat
  deriving DecidableEq, Repr, Inhabited

namespace BlockId

/-- The id that has no successor. -/
def last : BlockId := ⟨4294967295⟩

/-- How messages name a block. -/
def label (id : BlockId) : String := "b" ++ toString id.number

end BlockId
end RobotBlocks
