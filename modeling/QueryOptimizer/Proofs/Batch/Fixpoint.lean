import Mathlib
import QueryOptimizer.Optimizer
import QueryOptimizer.Proofs.Batch.Merging
import QueryOptimizer.Proofs.Batch.Normalization
import QueryOptimizer.Proofs.Batch.Sinking

/-! # Fixpoints of the logical batches

Each batch that sweeps until nothing changes has a bound on how often its rules can fire, which
depends on the plan alone. Given as many sweeps, it comes to rest.
-/

namespace QueryOptimizer

/-- The session with another limit on sweeps. -/
def Session.allowing (s : Session) (sweeps : Nat) : Session :=
  s.mapContext fun context => { context with config := { context.config with maxSweeps := sweeps } }

namespace Plan

variable {plan : Plan} {rank : NodeId → Nat}

theorem Regular.exists_selectWeight (regular : plan.Regular) (below : plan.InputsBelow rank) :
    ∃ k, plan.SelectWeight k :=
  ⟨_, regular, rank, fun n c member =>
    ⟨Nat.le_of_lt (below n c member), fun _ => below n c member⟩, Nat.le_refl _⟩

theorem Regular.exists_normalizesWithin (regular : plan.Regular) (below : plan.InputsBelow rank)
    {vars kept : VarSet}
    (inside : ∀ n, plan.Reaches n → ∀ v ∈ (plan.operator n).copies kept, v ∈ vars) :
    ∃ k, plan.NormalizesWithin vars kept k :=
  ⟨_, rank, ⟨regular, fun n _ => below n, inside⟩, Nat.le_refl _⟩

end Plan

theorem Potential.exists_sweeps {rules : List Rule} {Bound : Plan → Nat → Prop} {batch : Batch}
    (potential : Potential rules Bound) (among : ∀ rule ∈ batch.rules, rule ∈ rules)
    (untilStable : batch.controller.untilStable = true) {s : Session} {k : Nat}
    (bound : Bound s.plan k) : ∃ sweeps, ∀ n ≥ sweeps, Settles (batch.run (s.allowing n)) :=
  ⟨k + 1, fun _ enough => potential.settles_run among untilStable enough bound⟩

/-- Two consumers of a select over a join: a union, and another select. -/
def sharedSelect : Session where
  plan := {
    nodes := [
      some { Node.above .emptySource [] with schema := some [] },
      some { Node.above (.scan "S" [1]) [0] with schema := some [1] },
      some { Node.above (.scan "T" [2]) [0] with schema := some [2] },
      some { Node.above (.join .inner (.call .eq [.var 1, .var 2] [])) [1, 2] with
        schema := some [1, 2] },
      some { Node.above (.select (.var 1)) [3] with schema := some [1, 2] },
      some { Node.above (.select (.var 2)) [4] with schema := some [1, 2] },
      some { Node.above (.unionAll [⟨1, 2, 3⟩]) [4, 5] with schema := some [3] }],
    root := 6 }

theorem sharedSelect_regular : sharedSelect.plan.Regular :=
  .of_nodes ⟨by decide, by decide⟩ rfl (by decide)

theorem sharedSelect_acyclic : sharedSelect.plan.Acyclic := ⟨id, .of_nodes (by decide)⟩

end QueryOptimizer
