import QueryOptimizer.Derivation.Facts

/-! # Unmet requirements

What the inputs of a node lack, with the layouts that were recorded for them.
-/

namespace QueryOptimizer.Session

/-- The requirements of the physical operator of a node. -/
def requirements? (s : Session) (id : NodeId) : Option Requirements :=
  (s.plan.node id).physical.map fun physical =>
    physical.requirements (s.plan.mode id) (s.plan.inputs id).length

/-- The recorded layout of a node. Nothing is known without a record. -/
def recorded (s : Session) (id : NodeId) : Layout := (s.context.delivered.get? id).getD {}

/-- Adds what one input lacks, if something is required from it. -/
def addUnmet (id : NodeId) (coordination : Coordination) (facts : Facts)
    (acc : Session × List (Option Layout)) (entry : Option Layout × Nat) :
    Except Failure (Session × List (Option Layout)) :=
  let (s, unmet) := acc
  match entry with
  | (none, _) => .ok (s, unmet)
  | (some layout, index) => do
      let required ← if index = 1 then do
          coordination.coordinate facts layout (s.recorded (← s.plan.input id 0))
        else pure layout
      let input ← s.plan.input id index
      let (s, inputFacts) ← s.facts input
      let missing := Layout.missing? inputFacts (coordination = .independent) required
        (s.recorded input)
      return (s, unmet ++ [missing])

/-- What each input lacks from which something is required. -/
def unmet (s : Session) (id : NodeId) (requirements : Requirements) :
    Except Failure (Session × List (Option Layout)) := do
  let (s, facts) ← s.facts id
  requirements.layouts.zipIdx.foldlM (addUnmet id requirements.coordination facts) (s, [])

end QueryOptimizer.Session
