import Mathlib
import QueryOptimizer.Proofs.Plan.Edges
import QueryOptimizer.Proofs.Plan.Graph

/-! # Regular plans

A plan is regular if all its nodes, also those that cannot be reached, have the inputs that their
operators take, and nested plans that exist. Transformations keep plans regular.
-/

namespace QueryOptimizer.Plan

variable {plan plan' : Plan} {slot : Slot} {n m c p q old new : NodeId} {op : Operator} {node : Node}

/-- Whether every node has the inputs that its operator takes, and all children are there. -/
structure Regular (plan : Plan) : Prop where
  tidy : plan.Tidy
  numbered : plan.Numbered
  arity : ∀ n, plan.contains n = true → (plan.inputs n).length = (plan.operator n).arity
  inputs : ∀ n, ∀ c ∈ plan.inputs n, plan.contains c = true
  nested : ∀ n, ∀ c ∈ plan.nestedRoots n, plan.contains c = true
  root : plan.contains plan.root = true

namespace Regular

variable (regular : plan.Regular)

include regular

theorem present (reached : plan.Reaches n) : plan.contains n = true :=
  Below.of_closed (P := fun n => plan.contains n = true) regular.root
    (fun parent _ child member => (List.mem_append.mp member).elim (regular.inputs parent child)
      (regular.nested parent child)) reached

theorem onlySchemas (only : plan.OnlySchemas plan') : plan'.Regular where
  tidy := only.tidy regular.tidy
  numbered := only.numbered regular.numbered
  arity n present := by
    rw [only.inputs, only.operator]
    exact regular.arity n (only.contains n ▸ present)
  inputs n c member := by
    rw [only.inputs] at member
    rw [only.contains]
    exact regular.inputs n c member
  nested n c member := by
    rw [only.nestedRoots] at member
    rw [only.contains]
    exact regular.nested n c member
  root := by
    rw [only.root, only.contains]
    exact regular.root

theorem setOperator (arity : op.arity = (plan.operator n).arity)
    (present : ∀ c ∈ op.nested.flatten, plan.contains c = true) :
    (plan.setOperator n op).Regular where
  tidy := regular.tidy.modify
  numbered := regular.numbered.setOperator op
  arity m present := by
    rw [inputs_setOperator, regular.arity m (contains_modify ▸ present)]
    rcases operator_setOperator_cases plan n m op with same | ⟨rfl, changed⟩
    · rw [same]
    · rw [changed, arity]
  inputs m c member := by
    rw [inputs_setOperator] at member
    exact contains_modify.trans (regular.inputs m c member)
  nested m c member := by
    refine contains_modify.trans ?_
    unfold nestedRoots at member
    rcases operator_setOperator_cases plan n m op with same | ⟨rfl, changed⟩
    · rw [same] at member
      exact regular.nested m c member
    · rw [changed] at member
      exact present c member
  root := contains_modify.trans regular.root

theorem setInput {index : Nat} (found : (plan.inputs n)[index]? = some old)
    (present : plan.contains new = true) : (plan.setInput n index new).Regular where
  tidy := regular.tidy.modify
  numbered := regular.numbered.setInput found new
  arity m isNode := by
    rw [operator_setInput, ← regular.arity m (contains_modify ▸ isNode)]
    by_cases same : m = n
    · subst same
      rw [inputs_setInput_self regular.numbered found, List.length_set]
    · rw [inputs_setInput_of_ne same]
  inputs m c member := by
    refine contains_modify.trans ?_
    rcases mem_inputs_setInput regular.numbered found member with old | ⟨_, rfl⟩
    · exact regular.inputs m c old
    · exact present
  nested m c member := by
    unfold nestedRoots at member
    rw [operator_setInput] at member
    exact contains_modify.trans (regular.nested m c member)
  root := contains_modify.trans regular.root

theorem setSlot (here : plan.nodeAt slot = .ok old) (done : plan.setSlot slot new = .ok plan')
    (present : plan.contains new = true) : plan'.Regular := by
  have rewired := setSlot_rewired (fun parent _ _ => regular.numbered parent) here done
  have kept : ∀ {ids ids' : List NodeId}, List.Forall₂ (Replaces old new) ids ids' →
      (∀ c ∈ ids, plan.contains c = true) → ∀ c ∈ ids', plan'.contains c = true := by
    intro ids ids' replaced presentIds c member
    rw [rewired.contains]
    obtain ⟨x, inside, rfl | ⟨rfl, rfl⟩⟩ := exists_replaced replaced member
    · exact presentIds c inside
    · exact present
  refine ⟨rewired.tidy regular.tidy, regular.numbered.setSlot here done, fun n isNode => ?_,
    fun n => kept (rewired.inputs n) (regular.inputs n),
    fun n => kept (rewired.nestedRoots n) (regular.nested n), ?_⟩
  · obtain ⟨nested, changed, _⟩ := rewired.operator n
    rw [← (rewired.inputs n).length_eq, regular.arity n (rewired.contains n ▸ isNode), changed]
    cases plan.operator n <;> rfl
  · rw [rewired.contains]
    rcases rewired.root with same | ⟨_, same⟩
    · rw [same]
      exact regular.root
    · rw [same]
      exact present

theorem addNode (plain : node.operator.nested = []) (edges : node.inputs.map (·.1) = List.range node.inputs.length)
    (arity : node.inputs.length = node.operator.arity)
    (present : ∀ edge ∈ node.inputs, plan.contains edge.2 = true) :
    (plan.addNode node).1.Regular := by
  obtain ⟨_, added, others, root, tidy⟩ := addNode_spec regular.tidy node
  have isNode : (plan.addNode node).1.node (plan.addNode node).2 = node := by
    rw [Plan.node, added]
    rfl
  have old : ∀ n, plan.contains n = true → (plan.addNode node).1.contains n = true := by
    intro n present
    by_cases isNew : n = (plan.addNode node).2
    · rw [isNew, Plan.contains, added]
      rfl
    · rwa [Plan.contains, others n isNew]
  refine ⟨tidy, regular.numbered.addNode regular.tidy edges, fun n present' => ?_,
    fun n c member => ?_, fun n c member => ?_, ?_⟩
  · by_cases isNew : n = (plan.addNode node).2
    · rw [isNew, Plan.inputs, Plan.operator, isNode, List.length_map, arity]
    · have same := node_eq_of_node?_eq (others n isNew)
      rw [Plan.contains, others n isNew] at present'
      rw [Plan.inputs, Plan.operator, same]
      exact regular.arity n present'
  · by_cases isNew : n = (plan.addNode node).2
    · rw [isNew, Plan.inputs, isNode] at member
      obtain ⟨edge, isEdge, rfl⟩ := List.mem_map.mp member
      exact old _ (present edge isEdge)
    · rw [Plan.inputs, node_eq_of_node?_eq (others n isNew)] at member
      exact old c (regular.inputs n c member)
  · by_cases isNew : n = (plan.addNode node).2
    · rw [isNew, nestedRoots, Plan.operator, isNode, plain] at member
      cases member
    · rw [nestedRoots, Plan.operator, node_eq_of_node?_eq (others n isNew)] at member
      exact old c (regular.nested n c member)
  · rw [root]
    exact old _ regular.root

/-- The only input of a node whose operator takes one. -/
theorem inputs_eq_singleton (isInput : (plan.inputs n)[0]? = some c)
    (arity : (plan.operator n).arity = 1) : plan.inputs n = [c] := by
  have length := (regular.arity n (contains_of_input isInput)).trans arity
  obtain ⟨x, single⟩ := List.length_eq_one_iff.mp length
  rw [single] at isInput ⊢
  exact congrArg (fun x => [x]) (Option.some.inj isInput)

end Regular

/-- Regularity is a matter of the nodes that are there. -/
theorem Regular.of_nodes (tidy : plan.Tidy) (root : plan.contains plan.root = true)
    (each : ∀ n < plan.nodes.length,
      (plan.node n).inputs.map (·.1) = List.range (plan.node n).inputs.length ∧
      (plan.contains n = true → (plan.inputs n).length = (plan.operator n).arity) ∧
      ∀ c ∈ plan.children n, plan.contains c = true) : plan.Regular := by
  have children : ∀ n, ∀ c ∈ plan.children n, plan.contains c = true := fun n c member =>
    (each n (lt_of_children (List.ne_nil_of_mem member))).2.2 c member
  refine ⟨tidy, fun n => ?_, fun n present => ?_,
    fun n c member => children n c (List.mem_append_left _ member),
    fun n c member => children n c (List.mem_append_right _ member), root⟩
  · by_cases inside : n < plan.nodes.length
    · exact (each n inside).1
    · rw [Plan.node, node?_eq_none (Nat.le_of_not_lt inside)]
      rfl
  · exact (each n (lt_of_contains present)).2.1 present

theorem InputsBelow.of_nodes {rank : NodeId → Nat}
    (each : ∀ n < plan.nodes.length, ∀ c ∈ plan.inputs n, rank c < rank n) :
    plan.InputsBelow rank := fun n c member =>
  each n (lt_of_children (List.ne_nil_of_mem (List.mem_append_left _ member))) c member

/-- The owner of a nested source. -/
def sourceOwner? (plan : Plan) (n : NodeId) : Option NodeId :=
  match plan.operator n with
  | .nestedSource owner => some owner
  | _ => none

/-- A regular plan is well formed if ranks fall towards the sources, and every node that reads a nested
    source, as far as lists of their owners tell, is inside the nested plans of the owner. -/
theorem WellFormed.of_regular (regular : plan.Regular) (rank : NodeId → Nat)
    (owners : NodeId → List NodeId)
    (each : ∀ n < plan.nodes.length, (∀ c ∈ plan.sources n, rank c < rank n) ∧
      (∀ owner ∈ plan.sourceOwner? n, owner ∈ owners n) ∧ (∀ c ∈ plan.inputs n, owners c ⊆ owners n) ∧
      ∀ r ∈ plan.nestedRoots n, ∀ owner ∈ owners r, owner = n)
    (top : owners plan.root = []) : plan.WellFormed := by
  have known : ∀ {owner n}, plan.Reaches n → plan.Reads owner n → owner ∈ owners n := by
    intro owner n reached reads
    induction reads with
    | @source n operator =>
      refine (each n (lt_of_contains (regular.present reached))).2.1 owner ?_
      unfold sourceOwner?
      rw [operator]
      rfl
    | @input n c member _ ih =>
      exact (each n (lt_of_contains (regular.present reached))).2.2.1 c member (ih (reached.input member))
  refine ⟨regular.tidy, fun n => regular.present, fun n _ => regular.numbered n,
    fun n reached => regular.arity n (regular.present reached),
    ⟨rank, fun n reached => (each n (lt_of_contains (regular.present reached))).1⟩, fun owner reads => ?_,
    fun n r owner reached isRoot reads => ?_⟩
  · have listed := known .refl reads
    rw [top] at listed
    cases listed
  · exact (each n (lt_of_contains (regular.present reached))).2.2.2 r isRoot owner
      (known (reached.nestedRoot isRoot) reads)

/-! ## Shared nodes -/

/-- A node is shared if two nodes have it as an input. -/
theorem isShared_iff :
    plan.isShared c = true ↔ ∃ p q, p ≠ q ∧ c ∈ plan.inputs p ∧ c ∈ plan.inputs q := by
  have mem_parents : ∀ p, p ∈ plan.parents c ↔ c ∈ plan.inputs p := by
    intro p
    simp only [parents, ids, List.mem_filter, List.mem_range, decide_eq_true_eq]
    exact ⟨fun both => both.2, fun member =>
      ⟨⟨lt_of_contains (contains_of_mem member), contains_of_mem member⟩, member⟩⟩
  have once : (plan.parents c).Nodup := (List.nodup_range.filter _).filter _
  have count : plan.isShared c = true ↔ 1 < (plan.parents c).toFinset.card := by
    rw [List.toFinset_card_of_nodup once]
    exact decide_eq_true_iff
  rw [count, Finset.one_lt_card]
  simp only [List.mem_toFinset, mem_parents]
  constructor
  · rintro ⟨p, first, q, second, different⟩
    exact ⟨p, q, different, first, second⟩
  · rintro ⟨p, q, different, first, second⟩
    exact ⟨p, first, q, second, different⟩

theorem eq_of_not_shared (single : plan.isShared c = false) (first : c ∈ plan.inputs p)
    (second : c ∈ plan.inputs q) : p = q := by
  by_contra different
  exact Bool.noConfusion (single.symm.trans (isShared_iff.mpr ⟨p, q, different, first, second⟩))

end QueryOptimizer.Plan
