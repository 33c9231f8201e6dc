import QueryOptimizer.Batch
import QueryOptimizer.Plan.Validity

/-! # The optimizer -/

namespace QueryOptimizer

namespace Batch

/-- The batches that transform logical operators. -/
def logical : List Batch :=
  [once "type-inference" true [.inferTypes],
   fixpoint "normalization" true [.splitSelect, .inlineVariables, .dropUnusedAssigns],
   fixpoint "predicate-pushdown" false [.pushSelect],
   fixpoint "join-order-inference" false [.mergeSelectIntoJoin],
   fixpoint "operator-pushdown" false [.mergeLimits, .pushLimit],
   once "data-exchange-insertion" true [.chooseMode],
   fixpoint "consolidation" true [.mergeSelects, .mergeAssigns, .dropRedundantProject]]

/-- The batches that choose physical operators and put tuples where they need them. -/
def physical : List Batch :=
  [once "physical-operator-assignment" true [.choosePhysical],
   fixpoint "property-enforcement" false [.enforceLayouts],
   fixpoint "job-gen-preparation" true [.dropRedundantProject],
   once "type-inference" true [.inferTypes]]

/-- Runs batches one after the other. -/
def runAll (batches : List Batch) (s : Session) : Except Failure Session :=
  batches.foldlM (fun s batch => return (← batch.run s).1) s

end Batch

namespace Session

/-- Optimizes the plan of the session with the given batches. The result is valid. -/
def optimize (s : Session) (logical physical : List Batch) : Except Failure Session := do
  let s := s.mapContext fun context => (context.reserve s.plan.maxVariable?).resetApplied
  let s ← Batch.runAll logical (← s.refreshSchemas)
  let s ← Batch.runAll physical (← s.refreshSchemas)
  s.plan.validate !physical.isEmpty
  return s

end Session

end QueryOptimizer
