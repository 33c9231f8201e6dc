import Mathlib
import QueryOptimizer.Proofs.Plan.Redrawn
import QueryOptimizer.Proofs.Plan.Refresh

/-! # Regrouped plans

While facts are derived, keys of group-bys become decorations. Everything else about the plan stays.
-/

namespace QueryOptimizer

variable {op op' op'' : Operator}

namespace Operator.Regroups

theorem trans (first : op.Regroups op') (second : op'.Regroups op'') : op.Regroups op'' := by
  cases first with
  | same => exact second
  | groupBy nested entries =>
    cases second with
    | same => exact .groupBy nested entries
    | groupBy nested later => exact .groupBy nested (later.trans entries)

theorem resembles (regroups : op.Regroups op') : op.Resembles op' := by
  cases regroups with
  | same => exact .refl _
  | groupBy nested entries => exact ⟨rfl, rfl, fun owner => by simp, entries.map _⟩

end Operator.Regroups

namespace Plan

variable {plan plan' plan'' : Plan} {n : NodeId}

/-- A plan in which entries of group-bys changed their places. Algorithms may have been chosen and schemas
    computed. -/
structure Regrouped (plan plan' : Plan) : Prop where
  root : plan'.root = plan.root
  length : plan'.nodes.length = plan.nodes.length
  contains : ∀ n, plan'.contains n = plan.contains n
  tidy : plan.Tidy → plan'.Tidy
  edges : ∀ n, (plan'.node n).inputs = (plan.node n).inputs
  hints : ∀ n, (plan'.node n).hints = (plan.node n).hints
  operator : ∀ n, (plan.operator n).Regroups (plan'.operator n)

namespace Regrouped

theorem refl (plan : Plan) : plan.Regrouped plan :=
  ⟨rfl, rfl, fun _ => rfl, fun tidy => tidy, fun _ => rfl, fun _ => rfl, fun _ => .same _⟩

variable (regrouped : plan.Regrouped plan')

include regrouped

theorem trans (later : plan'.Regrouped plan'') : plan.Regrouped plan'' :=
  ⟨later.root.trans regrouped.root, later.length.trans regrouped.length,
    fun n => (later.contains n).trans (regrouped.contains n),
    fun tidy => later.tidy (regrouped.tidy tidy), fun n => (later.edges n).trans (regrouped.edges n),
    fun n => (later.hints n).trans (regrouped.hints n),
    fun n => (regrouped.operator n).trans (later.operator n)⟩

theorem inputs (n : NodeId) : plan'.inputs n = plan.inputs n :=
  congrArg (List.map Prod.snd) (regrouped.edges n)

theorem redrawn : plan.Redrawn plan' where
  root := regrouped.root
  contains := regrouped.contains
  tidy := regrouped.tidy
  positions n := by rw [regrouped.edges n]
  inputs n := by rw [regrouped.inputs n]
  operator n := (regrouped.operator n).resembles

theorem nestedRoots (n : NodeId) : plan'.nestedRoots n = plan.nestedRoots n :=
  regrouped.redrawn.nestedRoots n

theorem nestedSource_iff (n owner : NodeId) :
    plan'.operator n = .nestedSource owner ↔ plan.operator n = .nestedSource owner :=
  (regrouped.operator n).nestedSource_iff owner

theorem tupleSources (n : NodeId) : plan'.tupleSources n = plan.tupleSources n := by
  have same := regrouped.operator n
  unfold Plan.tupleSources
  generalize plan.operator n = op, plan'.operator n = op' at same ⊢
  cases same with
  | same =>
    split
    · rw [regrouped.inputs]
    · exact regrouped.inputs n
  | groupBy => exact regrouped.inputs n

theorem sources (n : NodeId) : plan'.sources n = plan.sources n := by
  have children : plan'.children n = plan.children n := by
    unfold Plan.children
    rw [regrouped.inputs, regrouped.nestedRoots]
  have same := regrouped.operator n
  unfold Plan.sources
  rw [children]
  generalize plan.operator n = op, plan'.operator n = op' at same ⊢
  cases same with
  | same =>
    split
    · rw [regrouped.inputs]
    · rfl
  | groupBy => rfl

end Regrouped

theorem OnlySchemas.regrouped (only : plan.OnlySchemas plan') : plan.Regrouped plan' where
  root := only.root
  length := only.length
  contains := only.contains
  tidy := only.tidy
  edges := only.edges
  hints := only.hints
  operator n := by
    rw [only.operator n]
    exact .same _

theorem node_setPhysical_cases (plan : Plan) (id n : NodeId) (physical : Physical) :
    (plan.setPhysical id physical).node n = plan.node n ∨
      n = id ∧ (plan.setPhysical id physical).node n = { plan.node n with physical := some physical } :=
  node_modify_cases plan id n _

/-- A node keeps its inputs and its hints, and may get a regrouped operator. -/
theorem Regrouped.modify {id : NodeId} {change : Node → Node}
    (inputs : ∀ node, (change node).inputs = node.inputs) (hints : ∀ node, (change node).hints = node.hints)
    (operator : (plan.operator id).Regroups (change (plan.node id)).operator) :
    plan.Regrouped (plan.modify id change) where
  root := rfl
  length := by simp [Plan.modify]
  contains _ := contains_modify
  tidy tidy := tidy.modify
  edges _ := node_modify_keeps Node.inputs inputs
  hints _ := node_modify_keeps Node.hints hints
  operator n := by
    unfold Plan.operator
    rcases node_modify_cases plan id n change with same | ⟨rfl, changed⟩
    · rw [same]
      exact .same _
    · rw [changed]
      exact operator

theorem Regrouped.setPhysical (plan : Plan) (id : NodeId) (physical : Physical) :
    plan.Regrouped (plan.setPhysical id physical) :=
  .modify (fun _ => rfl) (fun _ => rfl) (.same _)

theorem Regrouped.setOperator {id : NodeId} {keys decor keys' decor' : List (Var × Expr)}
    {nested : NestedPlans} (shape : plan.operator id = .groupBy keys decor nested)
    (entries : (keys' ++ decor').Perm (keys ++ decor)) :
    plan.Regrouped (plan.setOperator id (.groupBy keys' decor' nested)) :=
  .modify (fun _ => rfl) (fun _ => rfl) (shape ▸ .groupBy nested entries)

end Plan

end QueryOptimizer
