/-! # Configuration of the optimizer -/

namespace QueryOptimizer

/-- The memory that physical operators are given. -/
structure MemoryConfig where
  /-- Bytes in a frame. -/
  frameSize : Nat := 32768
  sortFrames : Nat := 4096
  joinFrames : Nat := 4096
  /-- How much larger than its input a hash table is. -/
  hashTableFactor : Float := 1.3

namespace MemoryConfig

instance : Inhabited MemoryConfig := ⟨{}⟩

/-- The number of frames that hold so many bytes. Without a frame size every byte is a frame. -/
def framesFor (memory : MemoryConfig) (bytes : Nat) : Nat :=
  if memory.frameSize = 0 then bytes
  else (bytes + (memory.frameSize - 1)) / memory.frameSize

def fitsSort (memory : MemoryConfig) (frames : Nat) : Bool := frames ≤ memory.sortFrames

/-- Whether a hash table over so many frames fits into the memory of a join. -/
def fitsJoin (memory : MemoryConfig) (frames : Nat) : Bool :=
  frames.toUInt64.toFloat * memory.hashTableFactor ≤ memory.joinFrames.toUInt64.toFloat

end MemoryConfig

/-- Limits on the work of the optimizer, and the memory of physical operators. -/
structure Config where
  /-- Sweeps of a batch that runs until nothing changes. -/
  maxSweeps : Nat := 100
  /-- Sorts that may be removed one after the other at one place. -/
  maxSortRemovals : Nat := 64
  memory : MemoryConfig := {}

instance : Inhabited Config := ⟨{}⟩

end QueryOptimizer
