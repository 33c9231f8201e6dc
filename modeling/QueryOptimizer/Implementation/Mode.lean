import QueryOptimizer.Session

/-! # Choice of modes -/

namespace QueryOptimizer.Session

/-- The mode of a node outside nested plans: scans run where their tuples are, operators on all
    tuples in one place, others in partitions if one of their inputs does. -/
def outerMode (s : Session) (id : NodeId) : Except Failure Mode :=
  match s.plan.operator id with
  | .emptySource => .ok .unpartitioned
  | .scan source vars => do
      let layout ← s.context.catalog.layout source vars
      return if (layout.partitioning.map (·.isPartitioned)).getD false then .partitioned
        else .unpartitioned
  | .aggregate .. | .runningAggregate .. | .limit .. | .order .. => .ok .unpartitioned
  | _ =>
      .ok (if (s.plan.inputs id).any fun input => s.plan.mode input = .partitioned then .partitioned
        else .unpartitioned)

/-- The mode that a node is to run in. -/
def modeFor (s : Session) (nested : List NodeId) (id : NodeId) : Except Failure Mode :=
  if id ∈ nested then .ok .local else s.outerMode id

/-- Sets the mode of the node in a slot. -/
def chooseMode (s : Session) (nested : List NodeId) (slot : Slot) :
    Except Failure (Session × Bool) := do
  let id ← s.plan.nodeAt slot
  let mode ← s.modeFor nested id
  if s.plan.mode id = mode then return (s, false)
  else return (s.withPlan (s.plan.setMode id mode), true)

end QueryOptimizer.Session
