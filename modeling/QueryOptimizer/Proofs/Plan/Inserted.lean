import Mathlib
import QueryOptimizer.Proofs.Plan.Wedge

/-! # Schemas around an operator on an edge

When an operator is put on an edge, its schema and that of the node above are computed. All other
nodes keep the schemas that they have.
-/

namespace QueryOptimizer.Plan

variable {plan mid plan' : Plan} {id parent input new n c : NodeId} {index : Nat} {node : Node}

/-- Whether a node has the schema that follows from its sources. -/
def Current (plan : Plan) (id : NodeId) : Prop :=
  ∃ vs, plan.schema id = .ok vs ∧ plan.schemaFromChildren id = .ok vs

theorem recomputeSchema_current (present : plan.contains id = true) (apart : id ∉ plan.sources id)
    (done : plan.recomputeSchema id = .ok plan') :
    plan'.Current id ∧ ∀ n, n ≠ id → (plan'.node n).schema = (plan.node n).schema := by
  have only := recomputeSchema_only done
  obtain ⟨vs, computed, done⟩ := bind_ok_iff.mp done
  cases pure_ok_iff.mp done
  have others : ∀ n, n ≠ id →
      ((plan.modify id fun node => { node with schema := some vs }).node n).schema =
        (plan.node n).schema := fun n different => by
    rw [node_modify_of_ne different]
  refine ⟨⟨vs, schema_ok_iff.mpr (by rw [node_modify_self present]), ?_⟩, others⟩
  refine only.schemaFromChildren (fun c source => others c ?_) computed
  rintro rfl
  exact apart source

/-- A plan with a new node on an edge, and with the schemas that have to be computed. -/
structure Inserted (plan : Plan) (parent : NodeId) (index : Nat) (input new : NodeId) (node : Node)
    (plan' : Plan) : Prop extends Wedged plan parent index input new node plan' where
  newCurrent : plan'.Current new
  parentCurrent : plan'.Current parent
  schema : ∀ n, n ≠ new → n ≠ parent → (plan'.node n).schema = (plan.node n).schema

theorem inserted_addNode (node : Node) (wellFormed : plan.WellFormed) (reached : plan.Reaches parent)
    (found : (plan.inputs parent)[index]? = some input)
    (edges : node.inputs = (List.range [input].length).zip [input]) (passes : node.operator.Passes)
    (first : ((plan.addNode node).1.setInput parent index (plan.addNode node).2).recomputeSchema
      (plan.addNode node).2 = .ok mid)
    (second : mid.recomputeSchema parent = .ok plan') :
    plan.Inserted parent index input (plan.addNode node).2 node plan' := by
  have wedged := wedged_addNode wellFormed reached found edges
  have stored : ∀ n, n ≠ (plan.addNode node).2 → n ≠ parent →
      ((plan.addNode node).1.setInput parent index (plan.addNode node).2).node n = plan.node n := by
    intro n different other
    unfold setInput
    rw [node_modify_of_ne other]
    exact node_eq_of_node?_eq ((addNode_spec wellFormed.tidy node).2.2.1 n different)
  generalize (plan.addNode node).1 = grown, (plan.addNode node).2 = new at *
  have wedged₁ := wedged.onlySchemas (recomputeSchema_only first)
  have wedged₂ := wedged₁.onlySchemas (recomputeSchema_only second)
  have apart : ∀ {later : Plan} {n}, plan.Wedged parent index input new node later →
      n = new ∨ n = parent → n ∉ later.sources n := by
    intro later n wedged either source
    have reachedN : later.Reaches n := by
      rcases either with rfl | rfl
      · exact wedged.reaches_new wellFormed reached
      · exact wedged.reaches wellFormed reached
    obtain ⟨rank, falls⟩ := wedged.acyclic wellFormed reached passes
    exact Nat.lt_irrefl _ (falls n reachedN n source)
  obtain ⟨⟨vs, schema, computed⟩, others₁⟩ :=
    recomputeSchema_current wedged.stands.contains (apart wedged (.inl rfl)) first
  have presentParent : mid.contains parent = true := by
    rw [wedged₁.contains parent wedged.ne_parent]
    exact wedged.present
  obtain ⟨parentCurrent, others₂⟩ :=
    recomputeSchema_current presentParent (apart wedged₁ (.inr rfl)) second
  have belowNew : ∀ c ∈ mid.sources new, c ≠ parent := by
    rintro c source rfl
    obtain ⟨rank, falls⟩ := wedged₁.acyclic wellFormed reached passes
    have down := falls new (wedged₁.reaches_new wellFormed reached) c source
    have up := falls c (wedged₁.reaches wellFormed reached) new (mem_sources_of_input (by
      rw [wedged₁.inputs]
      exact List.mem_set (List.getElem?_eq_some_iff.mp found).1 new))
    exact Nat.lt_asymm down up
  refine ⟨wedged₂, ⟨vs, ?_, ?_⟩, parentCurrent, fun n different other => ?_⟩
  · rw [schema_ok_iff, others₂ new wedged.ne_parent.symm]
    exact schema_ok_iff.mp schema
  · exact (recomputeSchema_only second).schemaFromChildren
      (fun c source => others₂ c (belowNew c source)) computed
  · rw [others₂ n other, others₁ n different, stored n different other]

end QueryOptimizer.Plan
