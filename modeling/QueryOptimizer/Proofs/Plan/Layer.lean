import Mathlib
import QueryOptimizer.Proofs.Plan.Rework

/-! # Layers

Nodes whose operator and inputs are known, and how changes of a plan make and keep them. A layer is
made of such nodes, each over earlier ones.
-/

namespace QueryOptimizer.Plan

variable {plan : Plan} {n m x y : NodeId} {op : Operator} {xs layer base : List NodeId}

/-- Whether a node has an operator over some inputs, numbered from the first. -/
def Stands (plan : Plan) (n : NodeId) (op : Operator) (xs : List NodeId) : Prop :=
  ∃ node, plan.node? n = some node ∧ node.operator = op ∧ node.inputs = (List.range xs.length).zip xs

namespace Stands

theorem of_wellFormed (wellFormed : plan.WellFormed) (reached : plan.Reaches n) :
    plan.Stands n (plan.operator n) (plan.inputs n) := by
  obtain ⟨node, found⟩ := contains_iff.mp (wellFormed.present n reached)
  have same := node_of_node? found
  have numbered := wellFormed.numbered n reached
  refine ⟨node, found, ?_, ?_⟩
  · unfold Plan.operator
    rw [same]
  · unfold Plan.inputs
    rw [same] at numbered ⊢
    rw [List.length_map, ← numbered]
    exact List.zip_of_prod rfl rfl

section Facts

variable (stands : plan.Stands n op xs)

include stands

theorem contains : plan.contains n = true := by
  obtain ⟨node, found, _⟩ := stands
  exact contains_iff.mpr ⟨node, found⟩

theorem node_eq : ∃ node, plan.node n = node ∧ node.operator = op ∧
    node.inputs = (List.range xs.length).zip xs := by
  obtain ⟨node, found, operator, edges⟩ := stands
  exact ⟨node, node_of_node? found, operator, edges⟩

theorem operator : plan.operator n = op := by
  obtain ⟨node, found, operator, _⟩ := stands.node_eq
  exact (congrArg Node.operator found).trans operator

theorem inputs : plan.inputs n = xs := by
  obtain ⟨node, found, _, edges⟩ := stands.node_eq
  unfold Plan.inputs
  rw [found, edges]
  exact List.map_snd_zip (by simp)

theorem numbered :
    (plan.node n).inputs.map (·.1) = List.range (plan.node n).inputs.length := by
  obtain ⟨node, found, _, edges⟩ := stands.node_eq
  rw [found, edges, List.length_zip, List.length_range, Nat.min_self]
  exact List.map_fst_zip (by simp)

theorem fit (arity : xs.length = op.arity) (plain : op.IsPlain) : plan.Fit n where
  present := stands.contains
  numbered := stands.numbered
  arity := by rw [stands.inputs, stands.operator, arity]
  plain := by
    rw [stands.operator]
    exact plain

theorem setInput {index : Nat} (inside : index < xs.length) (input : NodeId) :
    (plan.setInput n index input).Stands n op (xs.set index input) := by
  obtain ⟨node, found, operator, edges⟩ := stands
  refine ⟨node.setInput index input, ?_, operator, ?_⟩
  · rw [Plan.setInput, node?_modify, if_pos rfl, found]
    rfl
  · have positions : node.inputs.map (·.1) = List.range node.inputs.length := by
      rw [edges, List.length_zip, List.length_range, Nat.min_self]
      exact List.map_fst_zip (by simp)
    have length : node.inputs.length = xs.length := by
      rw [edges, List.length_zip, List.length_range, Nat.min_self]
    obtain ⟨positions', inputs⟩ :=
      Node.insertInput_of_numbered input positions (length.symm ▸ inside)
    have values : node.inputs.map (·.2) = xs := by
      rw [edges]
      exact List.map_snd_zip (by simp)
    rw [values] at inputs
    rw [length] at positions'
    rw [List.length_set]
    exact List.zip_of_prod positions' inputs

theorem setOperator (op' : Operator) : (plan.setOperator n op').Stands n op' xs := by
  obtain ⟨node, found, _, edges⟩ := stands
  refine ⟨node.setOperator op', ?_, rfl, edges⟩
  rw [Plan.setOperator, node?_modify, if_pos rfl, found]
  rfl

theorem congr {plan' : Plan} (same : plan'.node? n = plan.node? n) : plan'.Stands n op xs := by
  obtain ⟨node, found, rest⟩ := stands
  exact ⟨node, same.trans found, rest⟩

theorem onlySchemas {plan' : Plan} (only : plan.OnlySchemas plan') : plan'.Stands n op xs := by
  obtain ⟨node, found⟩ := contains_iff.mp ((only.contains n).trans stands.contains)
  have same := node_of_node? found
  obtain ⟨before, isBefore, operator, edges⟩ := stands.node_eq
  refine ⟨node, found, ?_, ?_⟩
  · rw [← same, ← operator, ← isBefore]
    exact only.operator n
  · rw [← same, only.edges n, isBefore, edges]

theorem modify (different : n ≠ m) (f : Node → Node) : (plan.modify m f).Stands n op xs :=
  stands.congr (by rw [node?_modify, if_neg different])

end Facts

/-- A node that is added stands where no node was. -/
theorem addNode (tidy : plan.Tidy) {node : Node}
    (edges : node.inputs = (List.range xs.length).zip xs) :
    ∃ grown new, plan.addNode node = (grown, new) ∧ plan.contains new = false ∧
      grown.Stands new node.operator xs ∧ (∀ n, n ≠ new → grown.node? n = plan.node? n) ∧
      grown.root = plan.root ∧ grown.Tidy := by
  obtain ⟨absent, added, others, root, tidy⟩ := addNode_spec tidy node
  exact ⟨(plan.addNode node).1, (plan.addNode node).2, rfl, congrArg Option.isSome absent,
    ⟨node, added, rfl, edges⟩, others, root, tidy⟩

end Stands

/-- Whether the inputs of each node of a list are in the base or earlier in the list. -/
def Layered (plan : Plan) (base layer : List NodeId) : Prop :=
  ∀ n ∈ layer, ∀ c ∈ plan.inputs n, c ∈ base ∨ c ∈ layer ∧ layer.idxOf c < layer.idxOf n

theorem Layered.nil : plan.Layered base [] := fun n impossible => by cases impossible

theorem Layered.snoc (layered : plan.Layered base layer) (new : n ∉ layer)
    (inputs : ∀ c ∈ plan.inputs n, c ∈ base ∨ c ∈ layer) : plan.Layered base (layer ++ [n]) := by
  intro m member c isInput
  have early : ∀ {c}, c ∈ layer → (layer ++ [n]).idxOf c = layer.idxOf c := fun inside =>
    List.idxOf_append_of_mem inside
  rcases List.mem_append.mp member with old | last
  · rcases layered m old c isInput with isBase | ⟨inside, lower⟩
    · exact .inl isBase
    · refine .inr ⟨List.mem_append_left _ inside, ?_⟩
      rwa [early inside, early old]
  · cases List.mem_singleton.mp last
    rcases inputs c isInput with isBase | inside
    · exact .inl isBase
    · refine .inr ⟨List.mem_append_left _ inside, ?_⟩
      rw [early inside, List.idxOf_append_of_notMem new]
      have := List.idxOf_lt_length_iff.mpr inside
      omega

/-- A layer of one node, which was changed or added. -/
theorem Stands.reworks {mid : Plan} {old : NodeId} (stands : mid.Stands n op base)
    (root : mid.root = plan.root) (tidy : mid.Tidy) (others : ∀ m, m ≠ n → mid.node? m = plan.node? m)
    (arity : base.length = op.arity) (plain : op.IsPlain) (under : ∀ b ∈ base, plan.Feeds old b)
    (changed : plan.contains n = true →
      (n = old ∨ plan.Feeds old n) ∧ (∀ b ∈ base, plan.Feeds n b) ∧ plan.nestedRoots n = []) :
    plan.Reworks old n [n] base mid := by
  refine ⟨root, tidy, fun m outside => others m (by simpa using outside), under, ?_, ?_, ?_, ?_,
    .inl List.mem_cons_self⟩
  · intro m member
    cases List.mem_singleton.mp member
    exact changed
  · intro m member
    cases List.mem_singleton.mp member
    exact stands.fit arity plain
  · refine Layered.nil.snoc List.not_mem_nil fun c member => .inl ?_
    rwa [stands.inputs] at member
  · rintro m (isLayer | isBase)
    · exact .inl (List.mem_singleton.mp isLayer)
    · exact .inr ⟨n, List.mem_cons_self, by rwa [stands.inputs]⟩

end QueryOptimizer.Plan
