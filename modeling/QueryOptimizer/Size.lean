import QueryOptimizer.Config.Basic

/-! # Sizes of relations -/

namespace QueryOptimizer

/-- The number of tuples and the bytes of a tuple, as far as they are known. -/
structure Size where
  cardinality : Option Nat := none
  tupleBytes : Option Nat := none
  deriving DecidableEq, Repr

namespace Size

instance : Inhabited Size := ⟨{}⟩

def unknown : Size := {}

/-- Numbers of tuples and bytes are below this bound, `2 ^ 64`. -/
def bound : Nat := 18446744073709551616

/-- The number of frames that hold the relation. It is unknown if its bytes are out of bounds. -/
def frames? (size : Size) (memory : MemoryConfig) : Option Nat := do
  let bytes := (← size.cardinality) * (← size.tupleBytes)
  if bytes < bound then some (memory.framesFor bytes) else none

end Size

end QueryOptimizer
