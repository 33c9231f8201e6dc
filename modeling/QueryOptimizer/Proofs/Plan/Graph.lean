import Mathlib
import QueryOptimizer.Proofs.Plan.Replaced

/-! # Well-formed plans

A plan is well formed if its nodes have the inputs that their operators take, no node comes from
itself, and the nested sources of an owner are only read inside its own nested plans. Everything is
said about the reachable nodes alone: what was cut off may be in any state until it is removed.
-/

namespace QueryOptimizer.Plan

variable {plan : Plan} {id n c owner : NodeId}

/-- The nodes whose schemas a node's schema follows from: its children, and for a nested source the
    input of its owner. -/
def sources (plan : Plan) (id : NodeId) : List NodeId :=
  plan.children id ++
    match plan.operator id with
    | .nestedSource owner => (plan.inputs owner)[0]?.toList
    | _ => []

theorem mem_sources_iff : c ∈ plan.sources n ↔ c ∈ plan.children n ∨
    ∃ owner, plan.operator n = .nestedSource owner ∧ (plan.inputs owner)[0]? = some c := by
  unfold sources
  rw [List.mem_append]
  refine or_congr_right ?_
  split
  · rename_i owner operator
    simp only [Option.mem_toList, operator, Operator.nestedSource.injEq,
      exists_eq_left']
  · rename_i other
    simp only [List.not_mem_nil, false_iff, not_exists, not_and]
    exact fun owner operator => absurd operator (other owner)

theorem mem_sources_of_child (member : c ∈ plan.children n) : c ∈ plan.sources n :=
  mem_sources_iff.mpr (.inl member)

theorem mem_sources_of_input (member : c ∈ plan.inputs n) : c ∈ plan.sources n :=
  mem_sources_of_child (List.mem_append_left _ member)

/-- The nodes whose tuples a node gets: its inputs, or for a nested source the input of its owner. -/
def tupleSources (plan : Plan) (id : NodeId) : List NodeId :=
  match plan.operator id with
  | .nestedSource owner => (plan.inputs owner)[0]?.toList
  | _ => plan.inputs id

theorem tupleSources_nestedSource (operator : plan.operator n = .nestedSource owner) :
    plan.tupleSources n = (plan.inputs owner)[0]?.toList := by
  unfold tupleSources
  rw [operator]

theorem tupleSources_eq_inputs (other : ∀ owner, plan.operator n ≠ .nestedSource owner) :
    plan.tupleSources n = plan.inputs n := by
  unfold tupleSources
  split
  · rename_i owner operator
    exact absurd operator (other owner)
  · rfl

theorem mem_sources_of_tupleSource (member : c ∈ plan.tupleSources n) : c ∈ plan.sources n := by
  unfold tupleSources at member
  split at member
  · rename_i owner operator
    exact mem_sources_iff.mpr (.inr ⟨owner, operator, by simpa using member⟩)
  · exact mem_sources_of_input member

/-- The nodes whose types the types of a node follow from. -/
def typeSources (plan : Plan) (n : NodeId) : List NodeId := plan.tupleSources n ++ plan.nestedRoots n

theorem mem_sources_of_typeSource (member : c ∈ plan.typeSources n) : c ∈ plan.sources n := by
  rcases List.mem_append.mp member with source | isRoot
  · exact mem_sources_of_tupleSource source
  · exact mem_sources_of_child (List.mem_append_right _ isRoot)

theorem source_cases (source : c ∈ plan.sources n) :
    c ∈ plan.inputs n ∨ c ∈ plan.nestedRoots n ∨ c ∈ plan.tupleSources n := by
  rcases mem_sources_iff.mp source with child | ⟨owner, operator, found⟩
  · rcases List.mem_append.mp child with isInput | isRoot
    · exact .inl isInput
    · exact .inr (.inl isRoot)
  · rw [tupleSources_nestedSource operator, found]
    exact .inr (.inr (List.mem_singleton_self c))

/-- Whether the ranks of the reachable nodes fall from a node to its sources. -/
def RankedBy (plan : Plan) (rank : NodeId → Nat) : Prop :=
  ∀ n, plan.Reaches n → ∀ c ∈ plan.sources n, rank c < rank n

/-- Whether ranks fall from reachable nodes to their children. -/
def Descends (plan : Plan) (rank : NodeId → Nat) : Prop :=
  ∀ n, plan.Reaches n → ∀ c ∈ plan.children n, rank c < rank n

theorem RankedBy.descends {rank : NodeId → Nat} (falls : plan.RankedBy rank) : plan.Descends rank :=
  fun n reached c child => falls n reached c (mem_sources_of_child child)

/-- A rank that is no larger than the list: how many of the listed nodes are not ranked higher. -/
def rankIn (ids : List NodeId) (rank : NodeId → Nat) (n : NodeId) : Nat :=
  (ids.toFinset.filter fun m => rank m ≤ rank n).card

theorem rankIn_le (ids : List NodeId) (rank : NodeId → Nat) (n : NodeId) : rankIn ids rank n ≤ ids.length :=
  (Finset.card_filter_le _ _).trans ids.toFinset_card_le

theorem rankIn_lt {ids : List NodeId} {rank : NodeId → Nat} (listed : n ∈ ids) (lower : rank c < rank n) :
    rankIn ids rank c < rankIn ids rank n := by
  refine Finset.card_lt_card ((Finset.ssubset_iff_of_subset fun m member => ?_).mpr ⟨n, ?_, ?_⟩)
  · rw [Finset.mem_filter] at member ⊢
    exact ⟨member.1, member.2.trans lower.le⟩
  · exact Finset.mem_filter.mpr ⟨List.mem_toFinset.mpr listed, le_rfl⟩
  · exact fun member => Nat.not_le_of_lt lower (Finset.mem_filter.mp member).2

/-- A plan as it is built and rewritten. -/
structure WellFormed (plan : Plan) : Prop where
  tidy : plan.Tidy
  present : ∀ n, plan.Reaches n → plan.contains n = true
  numbered : ∀ n, plan.Reaches n →
    (plan.node n).inputs.map (·.1) = List.range (plan.node n).inputs.length
  arity : ∀ n, plan.Reaches n → (plan.inputs n).length = (plan.operator n).arity
  acyclic : ∃ rank, plan.RankedBy rank
  /-- Nested sources stand inside the nested plans of their owner only. -/
  top : ∀ owner, ¬ plan.Reads owner plan.root
  innermost : ∀ n r owner, plan.Reaches n → r ∈ plan.nestedRoots n → plan.Reads owner r → owner = n

namespace WellFormed

variable (wellFormed : plan.WellFormed)

include wellFormed

/-- On the way from the root to a nested source lies its owner. -/
theorem reaches_of_reads (reached : plan.Reaches n) (reads : plan.Reads owner n) :
    plan.Reaches owner ∧ plan.nestedRoots owner ≠ [] := by
  induction reached with
  | refl => exact absurd reads (wellFormed.top owner)
  | @tail parent n reached member ih =>
    rcases List.mem_append.mp member with isInput | isRoot
    · exact ih (.input isInput reads)
    · obtain rfl := wellFormed.innermost parent n owner reached isRoot reads
      exact ⟨reached, List.ne_nil_of_mem isRoot⟩

theorem inputs_single (reached : plan.Reaches n) (arity : (plan.operator n).arity = 1)
    (found : (plan.inputs n)[0]? = some c) : plan.inputs n = [c] ∧ plan.Reaches c := by
  refine ⟨?_, reached.input (List.mem_of_getElem? found)⟩
  obtain ⟨y, inputs⟩ := List.length_eq_one_iff.mp ((wellFormed.arity n reached).trans arity)
  rw [inputs] at found ⊢
  exact congrArg (fun x => [x]) (Option.some.inj found)

theorem inputs_pair (reached : plan.Reaches n) (arity : (plan.operator n).arity = 2) :
    ∃ x y, plan.inputs n = [x, y] :=
  List.length_eq_two.mp ((wellFormed.arity n reached).trans arity)

/-- An owner of nested plans has one input. -/
theorem exists_input (reached : plan.Reaches owner) (nested : plan.nestedRoots owner ≠ []) :
    ∃ input, plan.inputs owner = [input] := by
  have one : (plan.operator owner).arity = 1 := by
    unfold nestedRoots at nested
    cases operator : plan.operator owner with
    | groupBy => rfl
    | subplan => rfl
    | _ => rw [operator] at nested; exact absurd rfl nested
  exact List.length_eq_one_iff.mp ((wellFormed.arity owner reached).trans one)

/-- The owner of a nested source has an input. -/
theorem exists_source (reached : plan.Reaches n) (operator : plan.operator n = .nestedSource owner) :
    ∃ input, (plan.inputs owner)[0]? = some input := by
  obtain ⟨reachedOwner, nested⟩ := wellFormed.reaches_of_reads reached (.source operator)
  obtain ⟨input, inputs⟩ := wellFormed.exists_input reachedOwner nested
  exact ⟨input, by rw [inputs]; rfl⟩

theorem reaches_source (reached : plan.Reaches n) (member : c ∈ plan.sources n) :
    plan.Reaches c := by
  rcases mem_sources_iff.mp member with child | ⟨owner, operator, found⟩
  · exact reached.child child
  · exact (wellFormed.reaches_of_reads reached (.source operator)).1.input
      (List.mem_of_getElem? found)

theorem exists_rank_le {ids : List NodeId} (listed : ∀ n, plan.Reaches n → n ∈ ids) :
    ∃ rank, plan.RankedBy rank ∧ ∀ n, rank n ≤ ids.length := by
  obtain ⟨rank, falls⟩ := wellFormed.acyclic
  exact ⟨rankIn ids rank, fun n reached c source =>
    rankIn_lt (listed n reached) (falls n reached c source), rankIn_le ids rank⟩

theorem mem_ids (reached : plan.Reaches n) : n ∈ plan.ids := by
  have present := wellFormed.present n reached
  exact List.mem_filter.mpr ⟨List.mem_range.mpr (lt_of_contains present), present⟩

theorem exists_height : ∃ rank, plan.RankedBy rank ∧ ∀ n, rank n ≤ plan.nodes.length := by
  obtain ⟨rank, falls, low⟩ := wellFormed.exists_rank_le fun n => wellFormed.mem_ids
  refine ⟨rank, falls, fun n => (low n).trans ?_⟩
  exact (List.length_filter_le _ _).trans List.length_range.le

end WellFormed

end QueryOptimizer.Plan
