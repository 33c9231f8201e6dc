import Mathlib
import QueryOptimizer.Proofs.Plan.Refresh
import QueryOptimizer.Proofs.Plan.Regrouped
import QueryOptimizer.Proofs.Plan.Regular

/-! # Refreshed schemas

In a plan that is walked from its sources, the schemas that follow from those of the sources are
determined by the operators. So a refresh does not depend on the schemas that it replaces.
-/

namespace QueryOptimizer.Plan

variable {plan plan' other : Plan} {ids : List NodeId} {n owner : NodeId}

/-- A refresh fails at a nested source whose owner has no input. -/
theorem exists_input_of_recomputed (done : ids.foldlM recomputeSchema plan = .ok plan')
    (member : n ∈ ids) (operator : plan.operator n = .nestedSource owner) :
    ∃ input, (plan.inputs owner)[0]? = some input := by
  induction ids generalizing plan with
  | nil => cases member
  | cons id ids ih =>
    obtain ⟨next, first, done⟩ := foldlM_cons_ok_iff.mp done
    rcases List.mem_cons.mp member with rfl | later
    · obtain ⟨vs, computed, _⟩ := bind_ok_iff.mp first
      obtain ⟨input, found, _⟩ := schemaFromChildren_of_nestedSource operator computed
      exact ⟨input, input_ok_iff.mp found⟩
    · have only := recomputeSchema_only first
      obtain ⟨input, found⟩ := ih done later ((only.operator n).trans operator)
      exact ⟨input, only.inputs owner ▸ found⟩

/-- Schemas that follow from the sources are the same in plans with the same operators and edges. -/
theorem Ordered.schema_eq (ordered : plan.Ordered ids)
    (operator : ∀ n, other.operator n = plan.operator n) (inputs : ∀ n, other.inputs n = plan.inputs n)
    (current : ∀ n ∈ ids, ∃ vs, plan.schema n = .ok vs ∧ plan.schemaFromChildren n = .ok vs)
    (current' : ∀ n ∈ ids, ∃ vs, other.schema n = .ok vs ∧ other.schemaFromChildren n = .ok vs) :
    ∀ n ∈ ids, (other.node n).schema = (plan.node n).schema := by
  induction ordered with
  | nil => exact fun n impossible => by cases impossible
  | @snoc ids n _ known _ ih =>
    have before := ih (fun m member => current m (List.mem_append_left _ member))
      fun m member => current' m (List.mem_append_left _ member)
    intro m member
    rcases List.mem_append.mp member with old | here
    · exact before m old
    · cases List.mem_singleton.mp here
      obtain ⟨vs, stored, computed⟩ := current n member
      obtain ⟨ws, stored', computed'⟩ := current' n member
      have again := schemaFromChildren_congr (operator n) (inputs n)
        (fun owner _ => by rw [inputs]) (fun c source => before c (known c source)) computed
      cases computed'.symm.trans again
      rw [schema_ok_iff.mp stored, schema_ok_iff.mp stored']

/-- A schema that is stored already is stored again. -/
theorem recomputeSchema_eq_self {vs : List Var} (stored : plan.schema n = .ok vs)
    (computed : plan.schemaFromChildren n = .ok vs) : plan.recomputeSchema n = .ok plan := by
  refine bind_ok_iff.mpr ⟨vs, computed, congrArg Except.ok ?_⟩
  have same : plan.nodes.modify n (·.map fun node => { node with schema := some vs }) = plan.nodes := by
    refine List.ext_getElem? fun m => ?_
    rw [List.getElem?_modify]
    split
    · rename_i here
      subst here
      have stored := schema_ok_iff.mp stored
      unfold Plan.node node? at stored
      generalize plan.nodes[n]? = found at stored
      rcases found with _ | _ | node
      · rfl
      · rfl
      · have stored : node.schema = some vs := stored
        simp [← stored]
    · exact Option.map_id'
  unfold Plan.modify
  rw [same]

theorem SchemasCurrent.refreshSchemas (current : plan.SchemasCurrent)
    (reached : ∀ n ∈ plan.bottomUp plan.root, plan.Reaches n) : plan.refreshSchemas = .ok plan := by
  unfold Plan.refreshSchemas
  generalize plan.bottomUp plan.root = ids at reached
  induction ids with
  | nil => rfl
  | cons id ids ih =>
    obtain ⟨vs, stored, computed⟩ := current id (reached id List.mem_cons_self)
    exact foldlM_cons_ok_iff.mpr ⟨plan, recomputeSchema_eq_self stored computed,
      ih fun n member => reached n (List.mem_cons_of_mem _ member)⟩

theorem Ordered.onlySchemas (ordered : plan.Ordered ids) (only : plan.OnlySchemas plan') :
    plan'.Ordered ids := by
  induction ordered with
  | nil => exact .nil
  | snoc _ known new ih => exact ih.snoc (fun c source => known c (only.regrouped.sources _ ▸ source)) new

theorem OnlySchemas.bottomUp (only : plan.OnlySchemas plan') :
    plan'.bottomUp plan'.root = plan.bottomUp plan.root := by
  unfold Plan.bottomUp walkAlong
  rw [only.root, only.length, funext only.children]

/-- In a plan without cycles in which nested sources can only be reached through the nested plans of
    their owners, a refresh that succeeds leaves schemas that follow from those of the sources. They
    do not depend on what was stored before, and another refresh changes nothing. -/
theorem refreshed_schemas_cohere (acyclic : ∃ rank, plan.Descends rank)
    (owned : ∀ owner, ¬ plan.Leaks owner plan.root)
    (present : ∀ n, plan.Reaches n → plan.contains n = true) (done : plan.refreshSchemas = .ok plan') :
    plan.OnlySchemas plan' ∧ plan'.SchemasCurrent ∧ plan'.refreshSchemas = .ok plan' ∧
    ∀ other, plan.OnlySchemas other → ∃ other', other.refreshSchemas = .ok other' ∧
      ∀ n, plan.Reaches n → other'.node n = plan'.node n := by
  obtain ⟨rank, falls⟩ := acyclic
  obtain ⟨ordered, reached⟩ := falls.bottomUp_ordered owned
  have refreshed : ∀ other, plan.OnlySchemas other → ∃ other', other.refreshSchemas = .ok other' ∧
      plan.OnlySchemas other' ∧ ∀ n ∈ plan.bottomUp plan.root,
        ∃ vs, other'.schema n = .ok vs ∧ other'.schemaFromChildren n = .ok vs := by
    intro other only
    obtain ⟨other', again, only', current⟩ := (ordered.onlySchemas only).recompute
      (fun n member => (only.contains n).trans (present n (reached n member)))
      fun n member owner operator => by
        rw [only.inputs]
        exact exists_input_of_recomputed done member (only.operator n ▸ operator)
    refine ⟨other', ?_, only.trans only', current⟩
    unfold Plan.refreshSchemas
    rw [only.bottomUp]
    exact again
  obtain ⟨_, again, only, current⟩ := refreshed plan (.refl plan)
  cases done.symm.trans again
  have allCurrent : plan'.SchemasCurrent := fun n reached' =>
    current n (mem_bottomUp (only.reaches_iff.mp reached'))
  refine ⟨only, allCurrent, allCurrent.refreshSchemas fun n member => ?_, fun other only' => ?_⟩
  · exact only.reaches_iff.mpr (reached n (only.bottomUp ▸ member))
  · obtain ⟨other', again, later, current'⟩ := refreshed other only'
    refine ⟨other', again, fun n reached => ?_⟩
    have same := (ordered.onlySchemas only).schema_eq (fun n => (later.operator n).trans (only.operator n).symm)
      (fun n => (later.inputs n).trans (only.inputs n).symm) current current' n (mem_bottomUp reached)
    obtain ⟨_, left⟩ := later.node n
    obtain ⟨_, right⟩ := only.node n
    rw [left, right] at same ⊢
    cases same
    rfl

/-- Counted groups, with schemas that do not fit the operators. -/
def staleGroups : Plan where
  nodes := [
    some (.above .emptySource []),
    some { Node.above (.scan "S" [1]) [0] with schema := some [7] },
    some { Node.above (.nestedSource 4) [] with schema := some [8] },
    some (.above (.aggregate [3] [.call .count [.var 1] []]) [2]),
    some { Node.above (.groupBy [(2, .var 1)] [] [[3]]) [1] with schema := some [] }]
  root := 4

theorem staleGroups_wellFormed : staleGroups.WellFormed :=
  .of_regular (.of_nodes ⟨by simp [staleGroups], by simp [staleGroups]⟩ rfl (by decide)) id
    (fun n => if n = 2 ∨ n = 3 then [4] else []) (by decide) rfl

/-- The nested source gets the schema of the input of its owner, whatever was stored for both. -/
theorem refreshed_schemas_cohere_staleGroups : ∃ plan', staleGroups.refreshSchemas = .ok plan' ∧
    plan'.schema 2 = .ok [1] ∧ plan'.schema 4 = .ok [3, 2] ∧ plan'.refreshSchemas = .ok plan' := by
  obtain ⟨rank, falls⟩ := staleGroups_wellFormed.acyclic
  obtain ⟨_, _, again, _⟩ := refreshed_schemas_cohere ⟨rank, falls.descends⟩
    staleGroups_wellFormed.not_leaks staleGroups_wellFormed.present rfl
  exact ⟨_, rfl, rfl, rfl, again⟩

end QueryOptimizer.Plan
