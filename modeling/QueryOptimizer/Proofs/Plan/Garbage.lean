import Mathlib
import QueryOptimizer.Proofs.Plan.Graph
import QueryOptimizer.Proofs.Plan.Walk

/-! # Removing what cannot be reached

Garbage collection removes nodes and leaves everything that can be reached as it is.
-/

namespace QueryOptimizer.Plan

variable {plan plan' : Plan} {n m c owner : NodeId}

/-- A plan with the same reachable nodes. -/
structure Trimmed (plan plan' : Plan) : Prop where
  root : plan'.root = plan.root
  same : ∀ n, plan.Reaches n → plan'.node? n = plan.node? n
  tidy : plan.Tidy → plan'.Tidy

namespace Trimmed

variable (trimmed : plan.Trimmed plan')

include trimmed

theorem node (reached : plan.Reaches n) : plan'.node n = plan.node n :=
  node_eq_of_node?_eq (trimmed.same n reached)

theorem operator (reached : plan.Reaches n) : plan'.operator n = plan.operator n :=
  congrArg Node.operator (trimmed.node reached)

theorem inputs (reached : plan.Reaches n) : plan'.inputs n = plan.inputs n :=
  inputs_congr (trimmed.node reached)

theorem below_iff (reached : plan.Reaches n) : plan'.Below n m ↔ plan.Below n m :=
  Below.congr (fun _ reached => children_congr (trimmed.node reached)) reached

theorem reaches_iff : plan'.Reaches n ↔ plan.Reaches n := by
  unfold Reaches
  rw [trimmed.root]
  exact trimmed.below_iff .refl

theorem reads_iff (reached : plan.Reaches n) : plan'.Reads owner n ↔ plan.Reads owner n := by
  constructor
  · intro reads
    induction reads with
    | source operator => exact .source (trimmed.operator reached ▸ operator)
    | input member _ ih =>
      rw [trimmed.inputs reached] at member
      exact .input member (ih (reached.input member))
  · intro reads
    induction reads with
    | source operator => exact .source ((trimmed.operator reached).trans operator)
    | input member _ ih =>
      exact .input ((trimmed.inputs reached).symm ▸ member) (ih (reached.input member))

theorem tupleSources (wellFormed : plan.WellFormed) (reached : plan.Reaches n) :
    plan'.tupleSources n = plan.tupleSources n := by
  unfold Plan.tupleSources
  rw [trimmed.operator reached]
  split
  · rename_i owner operator
    rw [trimmed.inputs (wellFormed.reaches_of_reads reached (.source operator)).1]
  · exact trimmed.inputs reached

theorem sources (wellFormed : plan.WellFormed) (reached : plan.Reaches n) :
    plan'.sources n = plan.sources n := by
  unfold Plan.sources
  rw [children_congr (trimmed.node reached), trimmed.operator reached]
  split
  · rename_i owner operator
    rw [trimmed.inputs (wellFormed.reaches_of_reads reached (.source operator)).1]
  · rfl

theorem wellFormed (wellFormed : plan.WellFormed) : plan'.WellFormed where
  tidy := trimmed.tidy wellFormed.tidy
  present n reached := by
    have reached := trimmed.reaches_iff.mp reached
    unfold contains
    rw [trimmed.same n reached]
    exact wellFormed.present n reached
  numbered n reached := by
    have reached := trimmed.reaches_iff.mp reached
    rw [trimmed.node reached]
    exact wellFormed.numbered n reached
  arity n reached := by
    have reached := trimmed.reaches_iff.mp reached
    rw [trimmed.inputs reached, trimmed.operator reached]
    exact wellFormed.arity n reached
  acyclic := by
    obtain ⟨rank, falls⟩ := wellFormed.acyclic
    refine ⟨rank, fun n reached c source => ?_⟩
    have reached := trimmed.reaches_iff.mp reached
    exact falls n reached c (trimmed.sources wellFormed reached ▸ source)
  top owner reads := by
    rw [trimmed.root] at reads
    exact wellFormed.top owner ((trimmed.reads_iff .refl).mp reads)
  innermost n r owner reached isRoot reads := by
    have reached := trimmed.reaches_iff.mp reached
    unfold nestedRoots at isRoot
    rw [trimmed.operator reached] at isRoot
    exact wellFormed.innermost n r owner reached isRoot
      ((trimmed.reads_iff (reached.nestedRoot isRoot)).mp reads)

end Trimmed

/-! ## Garbage collection -/

theorem node?_remove (plan : Plan) (id n : NodeId) : (plan.remove id).node? n =
    if n = id then none else (plan.node? n).map fun node =>
      { node with inputs := node.inputs.filter fun edge => edge.2 ≠ id } := by
  unfold remove node?
  rw [List.getElem?_map, List.getElem?_set]
  by_cases same : id = n
  · subst same
    rw [if_pos rfl, if_pos rfl]
    split <;> rfl
  · rw [if_neg same, if_neg (Ne.symm same)]
    cases plan.nodes[n]? <;> rfl

theorem Tidy.remove (tidy : plan.Tidy) (present : plan.contains n = true) :
    (plan.remove n).Tidy where
  vacant m member := by
    have length : (plan.remove n).nodes.length = plan.nodes.length := by simp [Plan.remove]
    rw [length, node?_remove]
    rcases List.mem_cons.mp member with rfl | old
    · exact ⟨lt_of_contains present, if_pos rfl⟩
    · obtain ⟨small, absent⟩ := tidy.vacant m old
      refine ⟨small, ?_⟩
      rw [absent]
      split <;> rfl
  once := by
    refine List.nodup_cons.mpr ⟨fun listed => ?_, tidy.once⟩
    have absent := (tidy.vacant n listed).2
    unfold contains at present
    rw [absent] at present
    cases present

/-- A node that cannot be reached is removed, and no edge of a reachable node. -/
theorem Trimmed.remove {mid : Plan} (trimmed : plan.Trimmed mid) (unreached : ¬ plan.Reaches n)
    (present : mid.contains n = true) : plan.Trimmed (mid.remove n) where
  root := trimmed.root
  tidy tidy := (trimmed.tidy tidy).remove present
  same m reached := by
    have other : m ≠ n := fun same => unreached (same ▸ reached)
    rw [node?_remove, if_neg other, trimmed.same m reached]
    cases found : plan.node? m with
    | none => rfl
    | some node =>
      have kept : ∀ edge ∈ node.inputs, edge.2 ≠ n := by
        rintro edge member rfl
        have isInput : edge.2 ∈ plan.inputs m := by
          unfold Plan.inputs Plan.node
          rw [found]
          exact List.mem_map_of_mem member
        exact unreached (reached.input isInput)
      rw [Option.map_some, List.filter_eq_self.mpr (by simpa using kept)]

theorem Trimmed.removeAll {mid : Plan} {removed : List NodeId} (trimmed : plan.Trimmed mid)
    (unreached : ∀ n ∈ removed, ¬ plan.Reaches n) (present : ∀ n ∈ removed, mid.contains n = true)
    (once : removed.Nodup) : plan.Trimmed (removed.foldl Plan.remove mid) := by
  induction removed generalizing mid with
  | nil => exact trimmed
  | cons n removed ih =>
    obtain ⟨new, once⟩ := List.nodup_cons.mp once
    refine ih (trimmed.remove (unreached n List.mem_cons_self) (present n List.mem_cons_self))
      (fun m member => unreached m (List.mem_cons_of_mem _ member)) (fun m member => ?_) once
    have other : m ≠ n := fun same => new (same ▸ member)
    have known := present m (List.mem_cons_of_mem _ member)
    unfold contains at known ⊢
    rw [node?_remove, if_neg other, Option.isSome_map]
    exact known

theorem mem_reachable_iff : n ∈ plan.reachable ↔ plan.Reaches n :=
  ⟨reaches_of_mem_reachable, mem_reachable⟩

/-- A plan without nested plans is well formed if its nodes are complete and come after their
    inputs. -/
theorem WellFormed.of_flat (tidy : plan.Tidy)
    (complete : ∀ n ∈ plan.reachable, plan.contains n = true ∧
      (plan.node n).inputs.map (·.1) = List.range (plan.node n).inputs.length ∧
      (plan.inputs n).length = (plan.operator n).arity)
    (ascending : ∀ n ∈ plan.reachable, ∀ c ∈ plan.sources n, c < n)
    (flat : ∀ n ∈ plan.reachable, (plan.operator n).kind ≠ .nestedSource) : plan.WellFormed := by
  have notReads : ∀ {owner n}, plan.Reads owner n → ¬ plan.Reaches n := by
    intro owner n reads reached
    induction reads with
    | source operator => exact flat _ (mem_reachable reached) (by rw [operator]; rfl)
    | input member _ ih => exact ih (reached.input member)
  exact {
    tidy := tidy
    present := fun n reached => (complete n (mem_reachable reached)).1
    numbered := fun n reached => (complete n (mem_reachable reached)).2.1
    arity := fun n reached => (complete n (mem_reachable reached)).2.2
    acyclic := ⟨id, fun n reached => ascending n (mem_reachable reached)⟩
    top := fun owner reads => notReads reads .refl
    innermost := fun n r owner reached isRoot reads =>
      absurd (reached.nestedRoot isRoot) (notReads reads) }

theorem mem_garbage : n ∈ plan.garbage ↔ plan.contains n = true ∧ ¬ plan.Reaches n := by
  unfold garbage ids
  rw [List.mem_filter, List.mem_filter, List.mem_range, ← mem_reachable_iff, decide_eq_true_eq]
  exact and_congr_left fun _ => ⟨fun known => known.2, fun present => ⟨lt_of_contains present, present⟩⟩

theorem trimmed_collectGarbage (plan : Plan) : plan.Trimmed plan.collectGarbage.1 :=
  Trimmed.removeAll ⟨rfl, fun _ _ => rfl, id⟩ (fun _ member => (mem_garbage.mp member).2)
    (fun _ member => (mem_garbage.mp member).1) ((List.nodup_range.filter _).filter _)

theorem contains_removeAll {removed : List NodeId} (present : (removed.foldl remove plan).contains n = true) :
    n ∉ removed ∧ plan.contains n = true := by
  induction removed generalizing plan with
  | nil => exact ⟨List.not_mem_nil, present⟩
  | cons id removed ih =>
    obtain ⟨kept, present⟩ := ih present
    unfold contains at present
    rw [node?_remove] at present
    split at present
    · cases present
    · rename_i other
      rw [Option.isSome_map] at present
      exact ⟨fun member => (List.mem_cons.mp member).elim other kept, present⟩

/-- Nothing is left to collect after a collection. -/
theorem garbage_collectGarbage (plan : Plan) : plan.collectGarbage.1.garbage = [] := by
  refine List.eq_nil_iff_forall_not_mem.mpr fun n member => ?_
  obtain ⟨present, unreached⟩ := mem_garbage.mp member
  obtain ⟨kept, present⟩ := contains_removeAll present
  rw [plan.trimmed_collectGarbage.reaches_iff] at unreached
  exact kept (mem_garbage.mpr ⟨present, unreached⟩)

theorem node?_collectGarbage (plan : Plan) (n : NodeId) :
    plan.collectGarbage.1.node? n = if n ∈ plan.garbage then none else plan.node? n := by
  have absent : plan.collectGarbage.1.contains n = false → plan.collectGarbage.1.node? n = none := by
    unfold contains
    simp
  split
  · rename_i removed
    refine absent (Bool.eq_false_iff.mpr fun present => ?_)
    exact (contains_removeAll present).1 removed
  · rename_i kept
    by_cases reached : plan.Reaches n
    · exact plan.trimmed_collectGarbage.same n reached
    · have missing : plan.contains n = false :=
        Bool.eq_false_iff.mpr fun present => kept (mem_garbage.mpr ⟨present, reached⟩)
      rw [absent (Bool.eq_false_iff.mpr fun present => ?_)]
      · unfold contains at missing
        exact (Option.not_isSome_iff_eq_none.mp (Bool.eq_false_iff.mp missing)).symm
      · exact Bool.noConfusion (missing.symm.trans (contains_removeAll present).2)

/-- The walk from the root lists every node that can be reached once, and a collection removes exactly
    the other nodes of the plan. What is left has the same operator, inputs at the same positions,
    properties and schema as before and leads to nothing that was removed. So there is nothing to
    collect again. -/
theorem collectGarbage_removes_unreachable (plan : Plan) :
    plan.reachable.Nodup ∧ (∀ n, n ∈ plan.reachable ↔ plan.Reaches n) ∧
    plan.collectGarbage.2.Nodup ∧
    (∀ n, n ∈ plan.collectGarbage.2 ↔ plan.contains n = true ∧ ¬ plan.Reaches n) ∧
    plan.collectGarbage.1.root = plan.root ∧
    (∀ n, plan.collectGarbage.1.node? n =
      if n ∈ plan.collectGarbage.2 then none else plan.node? n) ∧
    (∀ n, plan.collectGarbage.1.contains n = true → ∀ c ∈ plan.collectGarbage.1.children n,
      c ∉ plan.collectGarbage.2) ∧
    plan.collectGarbage.1.collectGarbage = (plan.collectGarbage.1, []) := by
  have trimmed := plan.trimmed_collectGarbage
  refine ⟨Walk.visit_nodup List.nodup_nil, fun n => mem_reachable_iff, (List.nodup_range.filter _).filter _,
    fun n => mem_garbage, trimmed.root, plan.node?_collectGarbage, fun n present c child removed => ?_, ?_⟩
  · obtain ⟨kept, present⟩ := contains_removeAll present
    have reached : plan.Reaches n := by
      by_contra unreached
      exact kept (mem_garbage.mpr ⟨present, unreached⟩)
    rw [children_congr (trimmed.node reached)] at child
    exact (mem_garbage.mp removed).2 (reached.child child)
  · unfold collectGarbage
    rw [show (plan.garbage.foldl remove plan).garbage = [] from plan.garbage_collectGarbage]
    rfl

end QueryOptimizer.Plan
