import QueryOptimizer.Plan.Schema

/-! # Transformations of projects -/

namespace QueryOptimizer.Plan

/-- Drops a project that keeps every variable, and a project right below another. -/
def dropRedundantProject (plan : Plan) (slot : Slot) : Except Failure (Option Plan) := do
  let id ← plan.nodeAt slot
  let input ← plan.input id 0
  match plan.operator id with
  | .project vars =>
      if (← plan.schema input) = vars then return some (← plan.setSlot slot input)
      else
        match plan.operator input with
        | .project _ => return some (plan.setInput id 0 (← plan.input input 0))
        | _ => return none
  | _ => return none

end QueryOptimizer.Plan
