import Mathlib
import QueryOptimizer.Proofs.Plan.Graph
import QueryOptimizer.Proofs.Relational.Steps

/-! # Where variables come from

Every column of a node is produced by the node or by one that it comes from. If each variable is
produced once, then no input of a node has a variable that the node produces.
-/

namespace QueryOptimizer

/-- A variable of the result is produced here, read by a projection, or comes from an input or a
    nested plan. -/
theorem Operator.mem_schema {op : Operator} {inputs nested : List (List Var)} {v : Var}
    (member : v ∈ op.schema inputs nested) :
    v ∈ op.produced ∨ (v ∈ op.used ∧ ∀ nested, op ≠ .subplan nested) ∨ v ∈ inputs.flatten ∨
      v ∈ nested.flatten := by
  have first : ∀ {v}, v ∈ inputs.headD [] → v ∈ inputs.flatten := by
    intro v member
    cases inputs with
    | nil => cases member
    | cons vs rest => exact List.mem_flatten.mpr ⟨vs, List.mem_cons_self, member⟩
  cases op with
  | project | distinct => exact .inr (.inl ⟨member, by simp⟩)
  | join => exact .inr (.inr (.inl member))
  | groupBy =>
    rcases mem_appendNew.mp member with inNested | here
    · exact .inr (.inr (.inr inNested))
    · exact .inl here
  | subplan =>
    rcases mem_appendNew.mp member with inInput | inNested
    · exact .inr (.inr (.inl inInput))
    · exact .inr (.inr (.inr inNested))
  | scan | assign | runningAggregate | unnest =>
    rcases mem_appendNew.mp member with inInput | here
    · exact .inr (.inr (.inl inInput))
    · exact .inl here
  | select | order | limit | exchange | replicate | write | insertDelete | sink =>
    exact .inr (.inr (.inl (first member)))
  | emptySource | nestedSource | aggregate | unionAll | script => exact .inl member

namespace Plan

variable {plan : Plan} {n m input : NodeId} {v : Var}

/-- Whether no variable is produced by two nodes, or twice by one. -/
def ProducedOnce (plan : Plan) : Prop :=
  (plan.reachable.flatMap fun id => (plan.operator id).produced).Nodup

instance : Decidable plan.ProducedOnce := inferInstanceAs (Decidable (List.Nodup _))

theorem ProducedOnce.nodup (once : plan.ProducedOnce) (reached : plan.Reaches n) :
    (plan.operator n).produced.Nodup :=
  (List.nodup_flatMap.mp once).1 n (mem_reachable reached)

theorem ProducedOnce.unique (once : plan.ProducedOnce) (reachedN : plan.Reaches n)
    (reachedM : plan.Reaches m) (first : v ∈ (plan.operator n).produced)
    (second : v ∈ (plan.operator m).produced) : n = m := by
  by_contra different
  have symm : Std.Symm (Function.onFun List.Disjoint fun id => (plan.operator id).produced) :=
    ⟨fun _ _ disjoint => List.disjoint_symm disjoint⟩
  have apart := (List.nodup_flatMap.mp once).2.forall (mem_reachable reachedN)
    (mem_reachable reachedM) different
  exact apart first second

section Valid

variable (current : plan.SchemasCurrent) (scope : plan.InScope)

include current scope

/-- A column of a node is produced there, or is a column of a node that it comes from. -/
theorem produced_or_source (reached : plan.Reaches n) (member : v ∈ plan.columns n) :
    v ∈ (plan.operator n).produced ∨ ∃ c ∈ plan.typeSources n, v ∈ plan.columns c := by
  by_cases isSource : ∃ owner, plan.operator n = .nestedSource owner
  · obtain ⟨owner, operator⟩ := isSource
    obtain ⟨input, found, columns⟩ := current.columns_nestedSource reached operator
    refine .inr ⟨input, List.mem_append_left _ ?_, columns ▸ member⟩
    rw [tupleSources_nestedSource operator, found]
    exact List.mem_singleton_self input
  · have other : ∀ owner, plan.operator n ≠ .nestedSource owner := not_exists.mp isSource
    have below : ∀ {ids : List NodeId}, v ∈ (ids.map plan.columns).flatten →
        ∃ c ∈ ids, v ∈ plan.columns c := by
      intro ids inside
      obtain ⟨_, isColumns, inside⟩ := List.mem_flatten.mp inside
      obtain ⟨c, isChild, rfl⟩ := List.mem_map.mp isColumns
      exact ⟨c, isChild, inside⟩
    have fromInput : (∃ c ∈ plan.inputs n, v ∈ plan.columns c) → ∃ c ∈ plan.typeSources n, v ∈ plan.columns c := by
      rw [← tupleSources_eq_inputs other]
      exact fun ⟨c, isInput, inside⟩ => ⟨c, List.mem_append_left _ isInput, inside⟩
    rw [current.columns_eq reached other] at member
    rcases Operator.mem_schema member with here | ⟨read, plain⟩ | inInput | inNested
    · exact .inl here
    · exact .inr (fromInput (scope n reached plain v read))
    · exact .inr (fromInput (below inInput))
    · obtain ⟨c, isRoot, inside⟩ := below inNested
      exact .inr ⟨c, List.mem_append_right _ isRoot, inside⟩

variable (wellFormed : plan.WellFormed)

include wellFormed

theorem exists_producer {rank : NodeId → Nat} (falls : plan.RankedBy rank) (reached : plan.Reaches n)
    (member : v ∈ plan.columns n) :
    ∃ m, plan.Reaches m ∧ rank m ≤ rank n ∧ v ∈ (plan.operator m).produced := by
  induction h : rank n using Nat.strong_induction_on generalizing n with
  | _ _ ih =>
    subst h
    rcases produced_or_source current scope reached member with here | ⟨c, source, inside⟩
    · exact ⟨n, reached, Nat.le_refl _, here⟩
    · have source := mem_sources_of_typeSource source
      have lower := falls n reached c source
      obtain ⟨m, reachedM, below, produced⟩ :=
        ih (rank c) lower (wellFormed.reaches_source reached source) inside rfl
      exact ⟨m, reachedM, below.trans lower.le, produced⟩

/-- What a node produces is new. -/
theorem ProducedOnce.fresh (once : plan.ProducedOnce) (reached : plan.Reaches n)
    (produced : v ∈ (plan.operator n).produced) (isInput : input ∈ plan.inputs n) :
    v ∉ plan.columns input := by
  intro member
  obtain ⟨rank, falls⟩ := wellFormed.acyclic
  obtain ⟨m, reachedM, below, earlier⟩ :=
    exists_producer current scope wellFormed falls (reached.input isInput) member
  have lower := falls n reached input (mem_sources_of_input isInput)
  obtain rfl := once.unique reached reachedM produced earlier
  exact Nat.lt_irrefl _ (below.trans_lt lower)

end Valid

end Plan

end QueryOptimizer
