import Mathlib
import QueryOptimizer.Operator.Schema
import QueryOptimizer.Proofs.Variable

/-! # Schemas of operators

The columns of a result depend on the columns of the inputs, not on their order, and not on which
entries of a group-by are keys.
-/

namespace QueryOptimizer

/-- Whether two lists have the same variables. -/
def SameVars (vs ws : List Var) : Prop := ∀ v, v ∈ vs ↔ v ∈ ws

theorem mem_flatten_iff_of_sameVars {lists lists' : List (List Var)} {v : Var}
    (same : List.Forall₂ SameVars lists lists') : v ∈ lists.flatten ↔ v ∈ lists'.flatten := by
  induction same with
  | nil => rfl
  | cons first _ ih => rw [List.flatten_cons, List.flatten_cons, List.mem_append, List.mem_append,
      first v, ih]

namespace Operator

variable {op op' : Operator}

/-- Operators that differ in which entries of a group-by are keys, and in their order. -/
inductive Regroups : Operator → Operator → Prop where
  | same (op : Operator) : Regroups op op
  | groupBy {keys decor keys' decor' : List (Var × Expr)} (nested : NestedPlans)
      (entries : (keys' ++ decor').Perm (keys ++ decor)) :
      Regroups (.groupBy keys decor nested) (.groupBy keys' decor' nested)

theorem Regroups.nested_eq (regroups : op.Regroups op') : op'.nested = op.nested := by
  cases regroups with
  | same => rfl
  | groupBy => rfl

theorem Regroups.nestedSource_iff (regroups : op.Regroups op') (owner : NodeId) :
    op' = .nestedSource owner ↔ op = .nestedSource owner := by
  cases regroups with
  | same => rfl
  | groupBy => exact iff_of_false (by simp) (by simp)

theorem Regroups.symm (regroups : op.Regroups op') : op'.Regroups op := by
  cases regroups with
  | same => exact .same _
  | groupBy nested entries => exact .groupBy nested entries.symm

theorem Regroups.of_groupBy {keys decor : List (Var × Expr)} {nested : NestedPlans} {op' : Operator}
    (regroups : (Operator.groupBy keys decor nested).Regroups op') :
    ∃ keys' decor', op' = .groupBy keys' decor' nested ∧ (keys' ++ decor').Perm (keys ++ decor) := by
  cases regroups with
  | same => exact ⟨keys, decor, rfl, .refl _⟩
  | groupBy nested entries => exact ⟨_, _, rfl, entries⟩

theorem Regroups.eq_of_not_groupBy (regroups : op.Regroups op')
    (other : ∀ keys decor nested, op ≠ .groupBy keys decor nested) : op' = op := by
  cases regroups with
  | same => rfl
  | groupBy nested entries => exact absurd rfl (other _ _ nested)

variable {inputs inputs' nested nested' : List (List Var)}

theorem sameVars_schema (op : Operator) (sameInputs : List.Forall₂ SameVars inputs inputs')
    (sameNested : List.Forall₂ SameVars nested nested') :
    SameVars (op.schema inputs nested) (op.schema inputs' nested') := by
  have flat : ∀ v, v ∈ inputs.flatten ↔ v ∈ inputs'.flatten := fun v =>
    mem_flatten_iff_of_sameVars sameInputs
  have nestedFlat : ∀ v, v ∈ nested.flatten ↔ v ∈ nested'.flatten := fun v =>
    mem_flatten_iff_of_sameVars sameNested
  have head : SameVars (inputs.headD []) (inputs'.headD []) := by
    cases sameInputs with
    | nil => exact fun _ => Iff.rfl
    | cons first _ => exact first
  have addNew : ∀ v ws, v ∈ appendNew inputs.flatten ws ↔ v ∈ appendNew inputs'.flatten ws := by
    intro v ws
    rw [mem_appendNew, mem_appendNew, flat v]
  intro v
  cases op with
  | join => exact flat v
  | groupBy => rw [schema, schema, mem_appendNew, mem_appendNew, nestedFlat v]
  | subplan => rw [schema, schema, mem_appendNew, mem_appendNew, flat v, nestedFlat v]
  | scan | assign | runningAggregate | unnest => exact addNew v _
  | select | order | limit | exchange | replicate | write | insertDelete | sink => exact head v
  | project | distinct | emptySource | nestedSource | aggregate | unionAll | script => exact Iff.rfl

theorem Regroups.sameVars_schema (regroups : op.Regroups op')
    (sameInputs : List.Forall₂ SameVars inputs inputs')
    (sameNested : List.Forall₂ SameVars nested nested') :
    SameVars (op'.schema inputs nested) (op.schema inputs' nested') := by
  cases regroups with
  | same => exact op.sameVars_schema sameInputs sameNested
  | @groupBy keys decor keys' decor' _ entries =>
    intro v
    have produced : v ∈ (keys' ++ decor').map (·.1) ↔ v ∈ (keys ++ decor).map (·.1) :=
      (entries.map _).mem_iff
    rw [schema, schema, mem_appendNew, mem_appendNew, mem_flatten_iff_of_sameVars sameNested]
    exact or_congr Iff.rfl produced

/-- Whether an operator makes its tuples of those of its inputs alone. -/
def IsPlain : Operator → Prop
  | nestedSource _ | groupBy .. | subplan _ => False
  | _ => True

theorem IsPlain.simple {op : Operator} (plain : op.IsPlain) :
    op.nested.flatten = [] ∧ ∀ owner, op ≠ .nestedSource owner := by
  cases op with
  | nestedSource | groupBy | subplan => exact plain.elim
  | _ => exact ⟨rfl, fun owner impossible => by cases impossible⟩

end Operator

end QueryOptimizer
