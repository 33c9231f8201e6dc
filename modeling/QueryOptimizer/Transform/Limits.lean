import QueryOptimizer.Transform.Selects

/-! # Transformations of limits -/

namespace QueryOptimizer

/-- Counts of tuples are below this bound, `2 ^ 64`. -/
def countBound : Nat := 18446744073709551616

/-- The number of tuples and the offset of a limit. -/
structure Limit where
  count : Nat
  offset : Option Nat := none
  deriving DecidableEq, Repr

/-- One limit in place of a limit over another. Offsets beyond all counts stay at the largest
    one. -/
def Limit.merge (outer inner : Limit) : Limit :=
  let skip := outer.offset.getD 0
  let count := min outer.count (inner.count - skip)
  match min (inner.offset.getD 0 + skip) (countBound - 1) with
  | 0 => ⟨count, none⟩
  | offset => ⟨count, some offset⟩

namespace Plan

/-- Merges a limit with a limit below it. -/
def mergeLimits (plan : Plan) (slot : Slot) : Except Failure (Option Plan) := do
  let outer ← plan.nodeAt slot
  let inner ← plan.input outer 0
  match plan.operator outer, plan.operator inner with
  | .limit count offset, .limit innerCount innerOffset =>
      let merged := Limit.merge ⟨count, offset⟩ ⟨innerCount, innerOffset⟩
      let input ← plan.input inner 0
      let (plan, id) := plan.addOver (.limit merged.count merged.offset) input (plan.mode outer)
      return some (← plan.setSlot slot id)
  | _, _ => return none

/-- Moves a limit below its input, which no other node may share. -/
def pushLimit (plan : Plan) (slot : Slot) : Except Failure (Option Plan) := do
  let id ← plan.nodeAt slot
  let child ← plan.input id 0
  if plan.isShared child then return none
  else return some (← plan.swapWithInput slot id child)

end Plan

end QueryOptimizer
