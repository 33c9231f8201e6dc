import QueryOptimizer.Operator.Text
import QueryOptimizer.Plan.Schema

/-! # Validity of plans -/

namespace QueryOptimizer.Plan

/-- Fails if the operator reads a variable that no input provides. A subplan reads nothing
    itself. -/
def checkScope (plan : Plan) (id : NodeId) : Except Failure Unit := do
  let scope := (← (plan.inputs id).mapM plan.schema).flatten
  match plan.operator id with
  | .subplan _ => return
  | op =>
      match op.used.find? fun v => decide (v ∉ scope) with
      | some v => throw (.outOfScope op.text v)
      | none => return

/-- Fails if there is no physical operator, or one that cannot run where the node is. -/
def checkPhysical (plan : Plan) (id : NodeId) (isNested : Bool) : Except Failure Unit :=
  match (plan.node id).physical with
  | none => .error (.notImplemented (plan.operator id).text)
  | some physical =>
      if isNested && !physical.isPipelined then .error (.notPipelined physical.text) else .ok ()

/-- Fails at the first reachable node that is not valid. Physical operators are checked if
    `physical` is set. -/
def validate (plan : Plan) (physical : Bool) : Except Failure Unit :=
  let nested := plan.nestedNodes
  plan.reachable.forM fun id => do
    plan.checkScope id
    if physical then plan.checkPhysical id (decide (id ∈ nested))

end QueryOptimizer.Plan
