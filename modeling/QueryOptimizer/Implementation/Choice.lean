import QueryOptimizer.Derivation.Facts
import QueryOptimizer.Implementation.Join

/-! # Choice of physical operators -/

namespace QueryOptimizer

/-- The variable that an expression refers to. -/
def variableIn (operator : OperatorKind) (e : Expr) : Except Failure Var :=
  match e.asVar? with
  | some v => .ok v
  | none => .error (.notAVariable operator.name e.text)

def groupColumns (columns : List (Var × Expr)) : Except Failure GroupColumns :=
  columns.mapM fun c => return (c.1, ← variableIn .groupBy c.2)

namespace Session

/-- Sorts in memory inside nested plans, and where the input fits. -/
def chooseSort (s : Session) (input : NodeId) (order : List OrderColumn) (isNested : Bool) :
    Except Failure (Session × Physical) := do
  let (s, frames) ← s.frames? input
  if isNested || (frames.map s.context.config.memory.fitsSort).getD false then
    return (s, .inMemorySort order)
  else return (s, .stableSort order)

/-- The algorithm for a node. Keys of a group-by are simplified first. -/
def physicalFor (s : Session) (id : NodeId) (isNested : Bool) :
    Except Failure (Session × Physical) := do
  let s ← match s.plan.operator id with
    | .groupBy .. => s.ensureFacts id
    | _ => pure s
  match s.plan.operator id with
  | .join .. => s.chooseJoin id
  | .emptySource => return (s, .emptySource)
  | .nestedSource owner => return (s, .nestedSource owner)
  | .scan source vars => return (s, .scan source vars)
  | .select _ => return (s, .streamSelect)
  | .assign .. => return (s, .assign)
  | .project vars => return (s, .streamProject vars)
  | .limit .. => return (s, .streamLimit)
  | .unnest .. => return (s, .unnest)
  | .runningAggregate .. => return (s, .runningAggregate)
  | .subplan _ => return (s, .subplan)
  | .replicate => return (s, .replicate)
  | .unionAll _ => return (s, .unionAll)
  | .script command _ outputs => return (s, .script command outputs)
  | .aggregate .. => return (s, .aggregate)
  | .groupBy keys decor _ =>
      let keys ← groupColumns keys
      let decor ← groupColumns decor
      if ((s.plan.node id).hints.get? "hash-group-by").isSome then
        return (s, .externalGroupBy keys decor)
      else return (s, .preclusteredGroupBy keys decor)
  | .distinct vars => return (s, .preSortedDistinct vars)
  | .order columns top =>
      match (Operator.order columns top).orderColumns? with
      | some order => s.chooseSort (← s.plan.input id 0) order isNested
      | none => throw .orderByExpression
  | .exchange => return (s, .oneToOneExchange)
  | .write sink _ => return (s, .sinkWrite sink)
  | .insertDelete _ dataset _ keys =>
      return (s, .insertDelete dataset (← keys.mapM (variableIn .insertDelete)))
  | .sink => return (s, .sink)

/-- Sets the physical operator of the node in a slot. -/
def choosePhysical (s : Session) (nested : List NodeId) (slot : Slot) :
    Except Failure (Session × Bool) := do
  let id ← s.plan.nodeAt slot
  let inputs := s.plan.inputs id
  let (s, physical) ← s.physicalFor id (decide (id ∈ nested))
  if (s.plan.node id).physical = some physical && s.plan.inputs id = inputs then return (s, false)
  else return (s.withPlan (s.plan.setPhysical id physical), true)

end Session

end QueryOptimizer
