import Mathlib
import QueryOptimizer.Proofs.Batch.Potential
import QueryOptimizer.Proofs.Transform.Selects

/-! # Rules that merge nodes

Operators that are merged with the one below, and projections that are dropped, bring an edge nearer
to the leaves.
-/

namespace QueryOptimizer

namespace Plan

variable {plan plan' : Plan} {slot : Slot} {k : Nat}

/-- The ranks of the nodes that edges lead to add up to the number, or to less. -/
def RankSum (plan : Plan) (k : Nat) : Prop :=
  plan.Numbered ∧ ∃ rank, plan.InputsBelow rank ∧ plan.load .none rank ≤ k

namespace RankSum

variable (bound : plan.RankSum k)

include bound

/-- A node in place of one above it. -/
theorem setSlot {id input : NodeId} (here : plan.nodeAt slot = .ok id) (isInput : input ∈ plan.inputs id)
    (done : plan.setSlot slot input = .ok plan') : ∃ k' < k, plan'.RankSum k' := by
  obtain ⟨numbered, rank, below, small⟩ := bound
  have lower : rank input < rank id := below id input isInput
  have moved : plan'.load .none rank + rank id = plan.load .none rank + rank input :=
    load_setSlot numbered here done
  exact ⟨_, by omega, numbered.setSlot here done, rank,
    below.setSlot numbered here done (Nat.le_of_lt lower), Nat.le_refl _⟩

/-- The input of an input in place of the input. -/
theorem setInput {n inner input : NodeId} (isInput : (plan.inputs n)[0]? = some inner)
    (isBelow : input ∈ plan.inputs inner) : ∃ k' < k, (plan.setInput n 0 input).RankSum k' := by
  obtain ⟨numbered, rank, below, small⟩ := bound
  have lower : rank input < rank inner := below inner input isBelow
  have higher : rank inner < rank n := below n inner (List.mem_of_getElem? isInput)
  have moved : (plan.setInput n 0 input).load .none rank + rank inner = plan.load .none rank + rank input :=
    load_setInput numbered isInput input
  exact ⟨_, by omega, numbered.setInput isInput input, rank,
    below.setInput numbered isInput (lower.trans higher), Nat.le_refl _⟩

theorem setOperator {n : NodeId} {op : Operator} (present : plan.contains n = true)
    (nested : op.nested = (plan.operator n).nested) : (plan.setOperator n op).RankSum k := by
  obtain ⟨numbered, rank, below, small⟩ := bound
  have same : (plan.setOperator n op).load .none rank = plan.load .none rank := by
    simpa using load_setOperator (b := .none) present nested
  exact ⟨numbered.setOperator op, rank, below.setOperator, same.le.trans small⟩

theorem onlySchemas (only : plan.OnlySchemas plan') : plan'.RankSum k := by
  obtain ⟨numbered, rank, below, small⟩ := bound
  refine ⟨only.numbered numbered, rank, below.onlySchemas only, ?_⟩
  rwa [only.load]

/-- An operator that takes over the input of its input. -/
theorem absorb {n inner input : NodeId} {op : Operator} (isInput : (plan.inputs n)[0]? = some inner)
    (isBelow : (plan.inputs inner)[0]? = some input) (nested : op.nested = (plan.operator n).nested) :
    ∃ k' < k, ((plan.setOperator n op).setInput n 0 input).RankSum k' := by
  have isInput' : ((plan.setOperator n op).inputs n)[0]? = some inner := by
    rwa [inputs_setOperator]
  have isBelow' : input ∈ (plan.setOperator n op).inputs inner := by
    rw [inputs_setOperator]
    exact List.mem_of_getElem? isBelow
  exact (bound.setOperator (contains_of_input isInput) nested).setInput isInput' isBelow'

end RankSum

/-- An assign over another one that it does not read from, and the one that takes the place of
    both. -/
theorem mergeAssigns_some (done : plan.mergeAssigns slot = .ok (some plan')) :
    ∃ outer inner input vars exprs innerVars innerExprs, plan.nodeAt slot = .ok outer ∧
      (plan.inputs outer)[0]? = some inner ∧ (plan.inputs inner)[0]? = some input ∧
      plan.operator outer = .assign vars exprs ∧ plan.operator inner = .assign innerVars innerExprs ∧
      (∀ v ∈ Expr.usedVarsOf exprs, v ∉ innerVars) ∧
      plan' = (plan.setOperator outer (.assign (innerVars ++ vars) (innerExprs ++ exprs))).setInput
        outer 0 input := by
  obtain ⟨outer, here, done⟩ := bind_ok_iff.mp done
  obtain ⟨inner, isInput, done⟩ := bind_ok_iff.mp done
  split at done
  · rename_i vars exprs innerVars innerExprs first second
    split at done
    · cases pure_ok_iff.mp done
    · rename_i apart
      obtain ⟨input, isBelow, done⟩ := bind_ok_iff.mp done
      cases pure_ok_iff.mp done
      exact ⟨outer, inner, input, vars, exprs, innerVars, innerExprs, here, input_ok_iff.mp isInput,
        input_ok_iff.mp isBelow, first, second, by simpa using apart, rfl⟩
  · cases pure_ok_iff.mp done

/-- A project that is dropped, since it keeps all columns, or one below another. -/
theorem dropRedundantProject_some (done : plan.dropRedundantProject slot = .ok (some plan')) :
    ∃ id input vars, plan.nodeAt slot = .ok id ∧ (plan.inputs id)[0]? = some input ∧
      plan.operator id = .project vars ∧
      (plan.schema input = .ok vars ∧ plan.setSlot slot input = .ok plan' ∨
        ∃ inner below, plan.operator input = .project inner ∧ (plan.inputs input)[0]? = some below ∧
          plan' = plan.setInput id 0 below) := by
  obtain ⟨id, here, done⟩ := bind_ok_iff.mp done
  obtain ⟨input, isInput, done⟩ := bind_ok_iff.mp done
  split at done
  · rename_i vars operator
    refine ⟨id, input, vars, here, input_ok_iff.mp isInput, operator, ?_⟩
    obtain ⟨schema, computed, done⟩ := bind_ok_iff.mp done
    split at done
    · rename_i same
      obtain ⟨final, placed, done⟩ := bind_ok_iff.mp done
      cases pure_ok_iff.mp done
      exact .inl ⟨same ▸ computed, placed⟩
    · split at done
      · rename_i inner second
        obtain ⟨below, isBelow, done⟩ := bind_ok_iff.mp done
        cases pure_ok_iff.mp done
        exact .inr ⟨inner, below, second, input_ok_iff.mp isBelow, rfl⟩
      · cases pure_ok_iff.mp done
  · cases pure_ok_iff.mp done

/-- Assignments of variables that are not needed: either there are none, or they are dropped, with the
    node if it has no others. -/
theorem dropUnusedAssigns_cases {needed : VarSet} {found : Option Plan}
    (done : plan.dropUnusedAssigns needed slot = .ok found) :
    ∃ id, plan.nodeAt slot = .ok id ∧
      (found = none ∧ (∀ vars exprs, plan.operator id = .assign vars exprs →
          needed.containsAll vars = true) ∨
        ∃ vars exprs plan', found = some plan' ∧ plan.operator id = .assign vars exprs ∧
          ¬needed.containsAll vars = true ∧
          let left := (vars.zip exprs).filter fun a => decide (a.1 ∈ needed)
          (left = [] ∧ (∃ input, (plan.inputs id)[0]? = some input ∧
              plan.setSlot slot input = .ok plan') ∨
            plan' = plan.setOperator id (.assign (left.map (·.1)) (left.map (·.2))))) := by
  obtain ⟨id, here, done⟩ := bind_ok_iff.mp done
  refine ⟨id, here, ?_⟩
  split at done
  · rename_i vars exprs operator
    split at done
    · rename_i all
      cases pure_ok_iff.mp done
      refine .inl ⟨rfl, fun vars' exprs' operator' => ?_⟩
      obtain ⟨rfl, rfl⟩ := Operator.assign.inj (operator.symm.trans operator')
      exact all
    · rename_i unneeded
      split at done
      · rename_i none
        obtain ⟨input, isInput, done⟩ := bind_ok_iff.mp done
        obtain ⟨final, placed, done⟩ := bind_ok_iff.mp done
        cases pure_ok_iff.mp done
        exact .inr ⟨vars, exprs, final, rfl, operator, unneeded,
          .inl ⟨none, input, input_ok_iff.mp isInput, placed⟩⟩
      · cases pure_ok_iff.mp done
        exact .inr ⟨vars, exprs, _, rfl, operator, unneeded, .inr rfl⟩
  · rename_i other
    cases pure_ok_iff.mp done
    exact .inl ⟨rfl, fun vars exprs operator => absurd operator (other vars exprs)⟩

theorem rankSum_potential :
    Potential [.mergeSelects, .mergeAssigns, .dropRedundantProject]
      fun plan k => plan.RankSum k where
  isLocal rule member := by
    fin_cases member <;> rfl
  only only bound := bound.onlySchemas only
  lowers member isLocal here _ bound done := by
    simp only [List.mem_cons, List.not_mem_nil, or_false] at member
    rcases member with rfl | rfl | rfl
    · cases isLocal
      obtain ⟨outer, inner, input, condition, innerCondition, _, isInput, isBelow, operator, _,
        rfl⟩ := mergeSelects_some done
      exact bound.absorb isInput isBelow (by rw [operator]; rfl)
    · cases isLocal
      obtain ⟨outer, inner, input, vars, exprs, innerVars, innerExprs, _, isInput, isBelow, operator,
        _, _, rfl⟩ := mergeAssigns_some done
      exact bound.absorb isInput isBelow (by rw [operator]; rfl)
    · cases isLocal
      obtain ⟨id, input, vars, here, isInput, _, ⟨_, placed⟩ | ⟨inner, below, _, isBelow, rfl⟩⟩ :=
        dropRedundantProject_some done
      · exact bound.setSlot here (List.mem_of_getElem? isInput) placed
      · exact bound.setInput isInput (List.mem_of_getElem? isBelow)

end Plan

end QueryOptimizer
