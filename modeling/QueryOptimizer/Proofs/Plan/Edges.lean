import Mathlib
import QueryOptimizer.Proofs.Plan.Change

/-! # Edges of plans

The inputs and the operators of all nodes of a plan after a change, if the inputs of every node are
numbered from zero on.
-/

namespace QueryOptimizer.Plan

variable {plan plan' : Plan} {slot : Slot} {n m c old new : NodeId} {node : Node} {index : Nat}

/-- Whether the inputs of every node are numbered from zero on. -/
def Numbered (plan : Plan) : Prop :=
  ∀ n, (plan.node n).inputs.map (·.1) = List.range (plan.node n).inputs.length

theorem Numbered.modify (numbered : plan.Numbered) {change : Node → Node}
    (keeps : (change (plan.node n)).inputs.map (·.1) =
      List.range (change (plan.node n)).inputs.length) : (plan.modify n change).Numbered := by
  intro m
  rcases node_modify_cases plan n m change with same | ⟨rfl, changed⟩
  · rw [same]
    exact numbered m
  · rw [changed]
    exact keeps

theorem Numbered.setOperator (numbered : plan.Numbered) (op : Operator) :
    (plan.setOperator n op).Numbered :=
  numbered.modify (numbered n)

theorem lt_length_inputs (found : (plan.inputs n)[index]? = some old) :
    index < (plan.node n).inputs.length := by
  have small := (List.getElem?_eq_some_iff.mp found).1
  rwa [Plan.inputs, List.length_map] at small

theorem Numbered.setInput (numbered : plan.Numbered) (found : (plan.inputs n)[index]? = some old)
    (new : NodeId) : (plan.setInput n index new).Numbered := by
  obtain ⟨positions, inputs⟩ := Node.insertInput_of_numbered new (numbered n) (lt_length_inputs found)
  have length := congrArg List.length positions
  rw [List.length_map, List.length_range] at length
  refine numbered.modify ?_
  rw [Node.setInput, positions, length]

theorem Numbered.addNode (numbered : plan.Numbered) (tidy : plan.Tidy)
    (above : node.inputs.map (·.1) = List.range node.inputs.length) :
    (plan.addNode node).1.Numbered := by
  obtain ⟨_, added, others, _, _⟩ := addNode_spec tidy node
  intro m
  by_cases isNew : m = (plan.addNode node).2
  · have isNode : (plan.addNode node).1.node m = node := by
      rw [Plan.node, isNew, added]
      rfl
    rw [isNode]
    exact above
  · rw [node_eq_of_node?_eq (others m isNew)]
    exact numbered m

theorem OnlySchemas.numbered (only : plan.OnlySchemas plan') (numbered : plan.Numbered) :
    plan'.Numbered := by
  intro n
  rw [only.edges n]
  exact numbered n

theorem setSlot_cases (done : plan.setSlot slot new = .ok plan') :
    slot = .root ∧ plan' = { plan with root := new } ∨
      (∃ parent index, slot = .input parent index ∧ plan' = plan.setInput parent index new) ∨
      ∃ owner p index, slot = .nestedRoot owner p index ∧ plan' = plan.setOperator owner
        ((plan.operator owner).mapNested fun nested =>
          nested.modify p fun roots => roots.set index new) := by
  cases slot with
  | root => exact .inl ⟨rfl, (Except.ok.inj done).symm⟩
  | input parent index => exact .inr (.inl ⟨parent, index, rfl, (Except.ok.inj done).symm⟩)
  | nestedRoot owner p index =>
    rw [setSlot] at done
    split at done
    · exact .inr (.inr ⟨owner, p, index, rfl, (Except.ok.inj done).symm⟩)
    · obtain ⟨_, _, impossible⟩ := bind_ok_iff.mp done
      exact absurd impossible throw_ne_ok

theorem Numbered.setSlot (numbered : plan.Numbered) (here : plan.nodeAt slot = .ok old)
    (done : plan.setSlot slot new = .ok plan') : plan'.Numbered := by
  rcases setSlot_cases done with ⟨rfl, rfl⟩ | ⟨parent, index, rfl, rfl⟩ | ⟨owner, p, index, rfl, rfl⟩
  · exact numbered
  · exact numbered.setInput (input_ok_iff.mp here) new
  · exact numbered.setOperator _

/-! ## Inputs -/

theorem inputs_setOperator {op : Operator} : (plan.setOperator n op).inputs m = plan.inputs m :=
  inputs_modify fun _ => rfl

theorem inputs_setInput_self (numbered : plan.Numbered) (found : (plan.inputs n)[index]? = some old)
    (new : NodeId) : (plan.setInput n index new).inputs n = (plan.inputs n).set index new := by
  unfold Plan.inputs Plan.setInput
  rw [node_modify_self (contains_of_input found)]
  exact (Node.insertInput_of_numbered new (numbered n) (lt_length_inputs found)).2

theorem inputs_setInput_of_ne (different : m ≠ n) (new : NodeId) :
    (plan.setInput n index new).inputs m = plan.inputs m := by
  unfold Plan.inputs Plan.setInput
  rw [node_modify_of_ne different]

theorem mem_inputs_setInput (numbered : plan.Numbered) (found : (plan.inputs n)[index]? = some old)
    (member : c ∈ (plan.setInput n index new).inputs m) : c ∈ plan.inputs m ∨ m = n ∧ c = new := by
  by_cases same : m = n
  · subst same
    rw [inputs_setInput_self numbered found] at member
    exact (List.mem_or_eq_of_mem_set member).imp_right fun isNew => ⟨rfl, isNew⟩
  · rw [inputs_setInput_of_ne same] at member
    exact .inl member

/-- A slot that holds another node is the only new edge. -/
theorem mem_inputs_setSlot (numbered : plan.Numbered) (here : plan.nodeAt slot = .ok old)
    (done : plan.setSlot slot new = .ok plan') (member : c ∈ plan'.inputs m) :
    c ∈ plan.inputs m ∨ c = new ∧ ∃ index, slot = .input m index := by
  rcases setSlot_cases done with ⟨rfl, rfl⟩ | ⟨parent, index, rfl, rfl⟩ | ⟨owner, p, index, rfl, rfl⟩
  · exact .inl member
  · rcases mem_inputs_setInput numbered (input_ok_iff.mp here) member with old | ⟨rfl, isNew⟩
    · exact .inl old
    · exact .inr ⟨isNew, index, rfl⟩
  · rw [inputs_setOperator] at member
    exact .inl member

/-! ## Ranks -/

/-- Whether the ranks of all nodes fall from a node to its inputs. -/
def InputsBelow (plan : Plan) (rank : NodeId → Nat) : Prop :=
  ∀ n, ∀ c ∈ plan.inputs n, rank c < rank n

/-- Whether no node is its own input, directly or through others. -/
def Acyclic (plan : Plan) : Prop := ∃ rank, plan.InputsBelow rank

namespace InputsBelow

variable {rank : NodeId → Nat} (below : plan.InputsBelow rank)

include below

theorem onlySchemas (only : plan.OnlySchemas plan') : plan'.InputsBelow rank := by
  intro n c member
  rw [only.inputs] at member
  exact below n c member

theorem setOperator {op : Operator} : (plan.setOperator n op).InputsBelow rank := by
  intro m c member
  rw [inputs_setOperator] at member
  exact below m c member

theorem setInput (numbered : plan.Numbered) {index : Nat}
    (found : (plan.inputs n)[index]? = some old) (lower : rank new < rank n) :
    (plan.setInput n index new).InputsBelow rank := by
  intro m c member
  rcases mem_inputs_setInput numbered found member with old | ⟨rfl, rfl⟩
  · exact below m c old
  · exact lower

theorem setSlot (numbered : plan.Numbered) (here : plan.nodeAt slot = .ok old)
    (done : plan.setSlot slot new = .ok plan') (lower : rank new ≤ rank old) :
    plan'.InputsBelow rank := by
  intro m c member
  rcases mem_inputs_setSlot numbered here done member with old | ⟨rfl, index, rfl⟩
  · exact below m c old
  · exact Nat.lt_of_le_of_lt lower
      (below m old (List.mem_of_getElem? (input_ok_iff.mp here)))

end InputsBelow

/-! ## Operators -/

theorem operator_setInput {index : Nat} :
    (plan.setInput n index new).operator m = plan.operator m := operator_modify fun _ => rfl

theorem operator_setOperator_of_ne {op : Operator} (different : m ≠ n) :
    (plan.setOperator n op).operator m = plan.operator m :=
  congrArg Node.operator (node_modify_of_ne different)

theorem operator_setOperator_keeps {α : Type} (f : Operator → α) {op : Operator}
    (same : f op = f (plan.operator n)) : f ((plan.setOperator n op).operator m) = f (plan.operator m) := by
  rcases operator_setOperator_cases plan n m op with unchanged | ⟨rfl, changed⟩
  · rw [unchanged]
  · rw [changed, same]

/-- What is in a slot does not matter for the kinds of operators. -/
theorem kind_setSlot (done : plan.setSlot slot new = .ok plan') :
    (plan'.operator m).kind = (plan.operator m).kind := by
  rcases setSlot_cases done with ⟨rfl, rfl⟩ | ⟨parent, index, rfl, rfl⟩ | ⟨owner, p, index, rfl, rfl⟩
  · rfl
  · rw [operator_setInput]
  · refine operator_setOperator_keeps _ ?_
    cases plan.operator owner <;> rfl

/-! ## Slots -/

/-- An operator with the same nested plans does not matter for slots. -/
theorem nodeAt_setOperator {op : Operator} (same : op.nested = (plan.operator n).nested) :
    (plan.setOperator n op).nodeAt slot = .ok c ↔ plan.nodeAt slot = .ok c :=
  nodeAt_congr rfl fun _ _ => ⟨inputs_setOperator, operator_setOperator_keeps _ same⟩

/-- An input of another node than the holder of a slot does not matter for the slot. -/
theorem nodeAt_setInput {index : Nat} (here : plan.nodeAt slot = .ok c) (other : c ∉ plan.inputs n) :
    (plan.setInput n index new).nodeAt slot = .ok c := by
  cases slot with
  | root => exact here
  | input parent place =>
    have found := input_ok_iff.mp here
    have different : parent ≠ n := by
      rintro rfl
      exact other (List.mem_of_getElem? found)
    rw [nodeAt, input_ok_iff, inputs_setInput_of_ne different]
    exact found
  | nestedRoot owner p place =>
    rw [nodeAt_nestedRoot_ok_iff] at here ⊢
    rwa [operator_setInput]

end QueryOptimizer.Plan
