import QueryOptimizer.Context
import QueryOptimizer.Physical.Delivery
import QueryOptimizer.Plan.Schema

/-! # Sessions

A session is a plan while it is optimized, together with what is known about it.
-/

namespace QueryOptimizer

structure Session where
  plan : Plan
  context : Context := {}
  /-- The warnings that were given, in order. -/
  warnings : List String := []

namespace Session

instance : Inhabited Session := ⟨{ plan := {} }⟩

def withPlan (s : Session) (plan : Plan) : Session := { s with plan := plan }

def mapContext (s : Session) (f : Context → Context) : Session :=
  { s with context := f s.context }

def warn (s : Session) (warning : String) : Session :=
  { s with warnings := s.warnings ++ [warning] }

def refreshSchemas (s : Session) : Except Failure Session := do
  return s.withPlan (← s.plan.refreshSchemas)

/-- A bound on the length of paths through the plan. -/
def depth (s : Session) : Nat := s.plan.nodes.length + 1

/-- The layout that a node delivers. -/
def delivered (s : Session) (id : NodeId) : Except Failure Layout :=
  match s.context.delivered.get? id with
  | some layout => .ok layout
  | none => do throw (.deliveryNotDerived (← s.plan.operatorName id))

/-- What the delivery of a node depends on. -/
def surroundings (s : Session) (id : NodeId) : Physical.Surroundings where
  mode := s.plan.mode id
  catalog := s.context.catalog
  input := do s.delivered (← s.plan.input id 0)
  inputOf owner := do
    match s.context.delivered.get? (← s.plan.input owner 0) with
    | some layout => return layout
    | none => throw .ownerNotDerived

end Session

end QueryOptimizer
