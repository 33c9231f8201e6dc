import QueryOptimizer.Plan.Walk

/-! # Schemas of nodes -/

namespace QueryOptimizer.Plan

/-- The computed schema of a node. -/
def schema (plan : Plan) (id : NodeId) : Except Failure (List Var) :=
  match (plan.node id).schema with
  | some schema => .ok schema
  | none => do throw (.schemaNotComputed (← plan.operatorName id))

/-- The schema of a node, from those of its children. A nested source has the schema of the input
    of its owner. -/
def schemaFromChildren (plan : Plan) (id : NodeId) : Except Failure (List Var) :=
  match plan.operator id with
  | .nestedSource owner => do plan.schema (← plan.input owner 0)
  | op => do
      let inputs ← (plan.inputs id).mapM plan.schema
      let nested ← (plan.nestedRoots id).mapM plan.schema
      return op.schema inputs nested

def recomputeSchema (plan : Plan) (id : NodeId) : Except Failure Plan := do
  let schema ← plan.schemaFromChildren id
  return plan.modify id fun node => { node with schema := some schema }

/-- Computes the schemas of all reachable nodes again, from the leaves to the root. -/
def refreshSchemas (plan : Plan) : Except Failure Plan :=
  (plan.bottomUp plan.root).foldlM recomputeSchema plan

end QueryOptimizer.Plan
