import Mathlib
import QueryOptimizer.Plan.Schema
import QueryOptimizer.Proofs.Outcome

/-! # Nodes of plans

What the nodes, operators, inputs and schemas of a plan are after a change of one node.
-/

namespace QueryOptimizer.Plan

variable {plan : Plan} {id n : NodeId} {f : Node → Node}

theorem node?_eq_none (outside : plan.nodes.length ≤ n) : plan.node? n = none := by
  rw [node?, List.getElem?_eq_none outside]
  rfl

theorem lt_of_contains (present : plan.contains n = true) : n < plan.nodes.length := by
  by_contra outside
  rw [contains, node?_eq_none (Nat.le_of_not_lt outside)] at present
  cases present

theorem node?_of_absent (absent : ¬ plan.contains n = true) : plan.node? n = none := by
  simpa [contains] using absent

theorem node_of_absent (absent : ¬ plan.contains n = true) : plan.node n = default := by
  rw [node, node?_of_absent absent]
  rfl

theorem contains_of_schema (computed : (plan.node n).schema.isSome = true) : plan.contains n = true := by
  by_contra absent
  rw [node_of_absent absent] at computed
  cases computed

theorem node?_modify :
    (plan.modify id f).node? n = if n = id then (plan.node? n).map f else plan.node? n := by
  unfold modify node?
  rw [List.getElem?_modify]
  by_cases same : n = id
  · subst same
    cases plan.nodes[n]? with
    | none => simp
    | some entry => simp
  · simp [same, Ne.symm same]

theorem node_of_node? {node : Node} (found : plan.node? n = some node) : plan.node n = node :=
  congrArg (Option.getD · default) found

theorem inputs_congr {plan' : Plan} (same : plan'.node n = plan.node n) :
    plan'.inputs n = plan.inputs n :=
  congrArg (fun node => node.inputs.map (·.2)) same

theorem nestedRoots_congr {plan' : Plan} (same : plan'.node n = plan.node n) :
    plan'.nestedRoots n = plan.nestedRoots n :=
  congrArg (fun node => node.operator.nested.flatten) same

theorem node_modify_of_ne (different : n ≠ id) : (plan.modify id f).node n = plan.node n := by
  unfold node
  rw [node?_modify, if_neg different]

theorem node_modify_self (present : plan.contains id) :
    (plan.modify id f).node id = f (plan.node id) := by
  obtain ⟨old, found⟩ := Option.isSome_iff_exists.mp present
  unfold node
  rw [node?_modify, if_pos rfl, found]
  rfl

/-- A node after a change is what it was, or what the change makes of it. -/
theorem node_modify_cases (plan : Plan) (id n : NodeId) (f : Node → Node) :
    (plan.modify id f).node n = plan.node n ∨
      n = id ∧ (plan.modify id f).node n = f (plan.node n) := by
  by_cases same : n = id
  · subst same
    cases present : plan.contains n with
    | true => exact .inr ⟨rfl, node_modify_self present⟩
    | false =>
      refine .inl ?_
      unfold node
      rw [node?_modify, if_pos rfl, node?_of_absent (by simp [present])]
      rfl
  · exact .inl (node_modify_of_ne same)

theorem node_setOperator_cases (plan : Plan) (id n : NodeId) (op : Operator) :
    (plan.setOperator id op).node n = plan.node n ∨
      n = id ∧ (plan.setOperator id op).node n = (plan.node n).setOperator op :=
  node_modify_cases plan id n fun node => node.setOperator op

theorem operator_setOperator_cases (plan : Plan) (id n : NodeId) (op : Operator) :
    (plan.setOperator id op).operator n = plan.operator n ∨
      n = id ∧ (plan.setOperator id op).operator n = op :=
  (node_setOperator_cases plan id n op).imp (congrArg Node.operator)
    (And.imp_right (congrArg Node.operator))

/-- What a change keeps of a node, it keeps of all nodes. -/
theorem node_modify_keeps {α : Type} (part : Node → α) (keeps : ∀ node, part (f node) = part node) :
    part ((plan.modify id f).node n) = part (plan.node n) := by
  rcases node_modify_cases plan id n f with same | ⟨_, changed⟩
  · rw [same]
  · rw [changed, keeps]

theorem operator_modify (keeps : ∀ node, (f node).operator = node.operator) :
    (plan.modify id f).operator n = plan.operator n :=
  node_modify_keeps Node.operator keeps

theorem inputs_modify (keeps : ∀ node, (f node).inputs = node.inputs) :
    (plan.modify id f).inputs n = plan.inputs n :=
  congrArg (List.map Prod.snd) (node_modify_keeps Node.inputs keeps)

theorem input_ok_iff {index : Nat} {input : NodeId} :
    plan.input id index = .ok input ↔ (plan.inputs id)[index]? = some input := by
  unfold Plan.input
  cases found : (plan.inputs id)[index]? with
  | some input => simp
  | none =>
    simp only [reduceCtorEq, iff_false]
    exact bind_throw_ne_ok

theorem input_of_single {input : NodeId} (inputs : plan.inputs id = [input]) :
    plan.input id 0 = .ok input := by
  rw [input_ok_iff, inputs]
  rfl

theorem schema_ok_iff {vs : List Var} :
    plan.schema id = .ok vs ↔ (plan.node id).schema = some vs := by
  unfold schema
  cases (plan.node id).schema with
  | some ws => simp
  | none =>
    simp only [reduceCtorEq, iff_false]
    exact bind_throw_ne_ok

/-- Computing a schema changes nothing else. -/
theorem recomputeSchema_spec {plan' : Plan} (done : plan.recomputeSchema id = .ok plan') :
    ∃ vs, plan.schemaFromChildren id = .ok vs ∧ (∀ n, plan'.operator n = plan.operator n) ∧
      (∀ n, plan'.inputs n = plan.inputs n) ∧
      ∀ n, (plan'.node n).schema = (plan.node n).schema ∨
        n = id ∧ (plan'.node n).schema = some vs := by
  obtain ⟨vs, computed, done⟩ := bind_ok_iff.mp done
  cases pure_ok_iff.mp done
  refine ⟨vs, computed, fun n => operator_modify fun _ => rfl, fun n => inputs_modify fun _ => rfl,
    fun n => ?_⟩
  rcases node_modify_cases plan id n fun node => { node with schema := some vs } with
    same | ⟨here, changed⟩
  · exact .inl (congrArg Node.schema same)
  · exact .inr ⟨here, congrArg Node.schema changed⟩

end QueryOptimizer.Plan
