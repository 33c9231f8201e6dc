import QueryOptimizer.Plan.Schema

/-! # Transformations of assignments -/

namespace QueryOptimizer.Plan

/-- The variables that somebody needs: those read by a node, and the schema of the root unless the
    root consumes its tuples. -/
def neededVars (plan : Plan) : Except Failure VarSet := do
  let used := plan.reachable.flatMap fun id => (plan.operator id).used
  match plan.operator plan.root with
  | .write .. | .insertDelete .. | .sink => return .ofList used
  | _ => return .ofList (used ++ (← plan.schema plan.root))

/-- Drops the assignments of variables that are not needed, and the node if nothing is left. -/
def dropUnusedAssigns (plan : Plan) (needed : VarSet) (slot : Slot) :
    Except Failure (Option Plan) := do
  let id ← plan.nodeAt slot
  match plan.operator id with
  | .assign vars exprs =>
      if needed.containsAll vars then return none
      else
        match (vars.zip exprs).filter fun a => decide (a.1 ∈ needed) with
        | [] => return some (← plan.setSlot slot (← plan.input id 0))
        | left => return some (plan.setOperator id (.assign (left.map (·.1)) (left.map (·.2))))
  | _ => return none

/-- Merges an assign with an assign below it that it does not read from. -/
def mergeAssigns (plan : Plan) (slot : Slot) : Except Failure (Option Plan) := do
  let outer ← plan.nodeAt slot
  let inner ← plan.input outer 0
  match plan.operator outer, plan.operator inner with
  | .assign vars exprs, .assign innerVars innerExprs =>
      if (Expr.usedVarsOf exprs).any fun v => decide (v ∈ innerVars) then return none
      else
        let input ← plan.input inner 0
        let merged := Operator.assign (innerVars ++ vars) (innerExprs ++ exprs)
        return some ((plan.setOperator outer merged).setInput outer 0 input)
  | _, _ => return none

end QueryOptimizer.Plan
