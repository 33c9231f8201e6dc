import Mathlib
import QueryOptimizer.Proofs.Plan.Load
import QueryOptimizer.Proofs.Plan.Regular
import QueryOptimizer.Proofs.Plan.Rework
import QueryOptimizer.Transform.Selects

/-! # Plans that grow

A node that is added over an input is the only node that is new. No other node has it yet.
-/

namespace QueryOptimizer.Plan

variable {plan : Plan} {slot : Slot} {id x n t : NodeId}

/-- A node that is added over an input. -/
structure Grows (plan : Plan) (op : Operator) (x : NodeId) (grown : Plan) (m : NodeId) : Prop where
  fresh : plan.contains m = false
  regular : grown.Regular
  contains : grown.contains m = true
  keeps : ∀ n, plan.contains n = true → grown.contains n = true
  operator : grown.operator m = op
  inputs : grown.inputs m = [x]
  others : ∀ n, n ≠ m → grown.node n = plan.node n
  root : grown.root = plan.root
  load : ∀ (b : Burden) (w : NodeId → Nat), grown.load b w = plan.load b w + w x + b.of op

theorem Regular.grows (regular : plan.Regular) {op : Operator} (mode : Mode) (arity : op.arity = 1)
    (nested : op.nested = []) (present : plan.contains x = true) :
    plan.Grows op x (plan.addOver op x mode).1 (plan.addOver op x mode).2 := by
  let node : Node := { Node.above op [x] with mode := mode }
  obtain ⟨absent, added, others, root, _⟩ := addNode_spec regular.tidy node
  have isNode : (plan.addNode node).1.node (plan.addNode node).2 = node := by
    rw [Plan.node, added]
    rfl
  refine ⟨?_, regular.addNode nested rfl arity.symm ?_, ?_, fun n present => ?_, ?_, ?_, ?_, root,
    fun b w => ?_⟩
  · change (plan.node? (plan.addNode node).2).isSome = false
    rw [absent]
    rfl
  · intro edge isEdge
    have isEdge : edge ∈ [(0, x)] := isEdge
    cases List.mem_singleton.mp isEdge
    exact present
  · exact contains_iff.mpr ⟨node, added⟩
  · by_cases isNew : n = (plan.addNode node).2
    · rw [isNew]
      exact contains_iff.mpr ⟨node, added⟩
    · exact (congrArg Option.isSome (others n isNew)).trans present
  · exact congrArg Node.operator isNode
  · exact congrArg (fun node : Node => node.inputs.map (·.2)) isNode
  · exact fun n other => node_eq_of_node?_eq (others n other)
  · have added : node.load b w = b.of op + ([x].map w).sum + (op.nested.flatten.map w).sum := rfl
    rw [show (plan.addOver op x mode).1.load b w = _ from load_addNode regular.tidy node, added, nested]
    simp
    omega

/-- Only the numbers of the nodes that are there matter. -/
theorem Regular.load_congr {b : Burden} {w w' : NodeId → Nat} (regular : plan.Regular)
    (same : ∀ n, plan.contains n = true → w' n = w n) : plan.load b w' = plan.load b w := by
  refine Plan.load_congr (same _ regular.root) fun n c member => same c ?_
  rcases List.mem_append.mp member with isInput | isRoot
  · exact regular.inputs n c isInput
  · exact regular.nested n c isRoot

namespace Grows

variable {op : Operator} {grown : Plan} {m : NodeId} (grows : plan.Grows op x grown m)

include grows

theorem ne_of_contains (present : plan.contains n = true) : n ≠ m := by
  rintro rfl
  exact Bool.noConfusion (grows.fresh.symm.trans present)

theorem operator_of_ne (other : n ≠ m) : grown.operator n = plan.operator n :=
  congrArg Node.operator (grows.others n other)

theorem mem_inputs (member : t ∈ grown.inputs n) : n = m ∧ t = x ∨ n ≠ m ∧ t ∈ plan.inputs n := by
  by_cases isNew : n = m
  · subst isNew
    rw [grows.inputs] at member
    exact .inl ⟨rfl, List.mem_singleton.mp member⟩
  · unfold Plan.inputs at member ⊢
    rw [grows.others n isNew] at member
    exact .inr ⟨isNew, member⟩

theorem nodeAt (here : plan.nodeAt slot = .ok id) : grown.nodeAt slot = .ok id := by
  refine (nodeAt_congr grows.root fun holder holds => ?_).mpr here
  suffices other : holder ≠ m by
    unfold Plan.inputs Plan.operator
    rw [grows.others holder other]
    exact ⟨rfl, rfl⟩
  have member := mem_children_of_nodeAt here holds
  rcases List.mem_append.mp member with isInput | isRoot
  · exact grows.ne_of_contains (contains_of_mem isInput)
  · obtain ⟨roots, isPlan, _⟩ := List.mem_flatten.mp isRoot
    obtain ⟨p, found⟩ := List.mem_iff_getElem?.mp isPlan
    exact grows.ne_of_contains (contains_of_nested found)

end Grows

end QueryOptimizer.Plan
