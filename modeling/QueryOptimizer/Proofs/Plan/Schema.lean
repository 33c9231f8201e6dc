import Mathlib
import QueryOptimizer.Proofs.Plan.Change
import QueryOptimizer.Proofs.Plan.Walk

/-! # Schemas of plans

When schemas are computed again, every reachable node gets one.
-/

namespace QueryOptimizer.Plan

variable {plan plan' : Plan} {id n : NodeId}

/-- Whether the schemas of all reachable nodes are those that follow from their children. -/
def SchemasCurrent (plan : Plan) : Prop :=
  ∀ id, plan.Reaches id → ∃ vs, plan.schema id = .ok vs ∧ plan.schemaFromChildren id = .ok vs

theorem schemaFromChildren_of_nestedSource {owner : NodeId} {vs : List Var}
    (operator : plan.operator id = .nestedSource owner)
    (computed : plan.schemaFromChildren id = .ok vs) :
    ∃ input, plan.input owner 0 = .ok input ∧ plan.schema input = .ok vs := by
  unfold schemaFromChildren at computed
  rw [operator] at computed
  exact bind_ok_iff.mp computed

theorem schemaFromChildren_eq (other : ∀ owner, plan.operator id ≠ .nestedSource owner) :
    plan.schemaFromChildren id = (do
      let inputs ← (plan.inputs id).mapM plan.schema
      let nested ← (plan.nestedRoots id).mapM plan.schema
      return (plan.operator id).schema inputs nested) := by
  unfold schemaFromChildren
  cases shape : plan.operator id with
  | nestedSource owner => exact absurd shape (other owner)
  | _ => rfl

theorem recomputeSchema_some (done : plan.recomputeSchema id = .ok plan')
    (known : (plan.node n).schema.isSome = true ∨ n = id ∧ plan.contains n = true) :
    (plan'.node n).schema.isSome = true := by
  obtain ⟨vs, _, done⟩ := bind_ok_iff.mp done
  cases pure_ok_iff.mp done
  rcases known with stored | ⟨rfl, present⟩
  · rcases node_modify_cases plan id n fun node => { node with schema := some vs } with
      same | ⟨_, changed⟩
    · rwa [same]
    · rw [changed]
      rfl
  · rw [node_modify_self present]
    rfl

theorem foldlM_recomputeSchema_some {ids : List NodeId}
    (done : ids.foldlM recomputeSchema plan = .ok plan') (present : plan.contains n = true)
    (known : (plan.node n).schema.isSome = true ∨ n ∈ ids) :
    (plan'.node n).schema.isSome = true := by
  induction ids generalizing plan with
  | nil =>
    cases foldlM_nil_ok_iff.mp done
    rcases known with stored | impossible
    · exact stored
    · cases impossible
  | cons id ids ih =>
    obtain ⟨next, first, done⟩ := foldlM_cons_ok_iff.mp done
    refine ih done ((recomputeSchema_only first).contains n |>.trans present) ?_
    rcases known with stored | member
    · exact .inl (recomputeSchema_some first (.inl stored))
    · rcases List.mem_cons.mp member with rfl | member
      · exact .inl (recomputeSchema_some first (.inr ⟨rfl, present⟩))
      · exact .inr member

/-- Every reachable node has a schema after a refresh. -/
theorem refreshSchemas_some (done : plan.refreshSchemas = .ok plan') (reached : plan.Reaches n)
    (present : plan.contains n = true) : (plan'.node n).schema.isSome = true :=
  foldlM_recomputeSchema_some done present (.inr (mem_bottomUp reached))

end QueryOptimizer.Plan
