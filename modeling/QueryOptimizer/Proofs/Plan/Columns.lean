import Mathlib
import QueryOptimizer.Proofs.Plan.Regrouped

/-! # Columns of the nodes of a plan

The columns of a node are the variables of its schema, in no order. They follow from those of its
sources, so that a plan has them whether its schemas are computed or not. Which entries of a group-by
are keys, and in which order the sides of a join stand, makes no difference to them.
-/

namespace QueryOptimizer

theorem sameVars_of_ofList {vs : List Var} {columns : VarSet} (same : VarSet.ofList vs = columns) :
    SameVars vs columns.toList := by
  intro v
  rw [← same]
  exact VarSet.mem_ofList.symm

theorem ofList_eq_of_sameVars {vs ws : List Var} (same : SameVars vs ws) :
    VarSet.ofList vs = VarSet.ofList ws :=
  VarSet.ext fun v => by rw [VarSet.mem_ofList, VarSet.mem_ofList, same v]

namespace Plan

variable {plan plan' : Plan} {columns columns' : NodeId → VarSet} {n c : NodeId}

/-- Whether the columns of a node follow from those of its sources. -/
def ColumnsFollow (plan : Plan) (columns : NodeId → VarSet) (n : NodeId) : Prop :=
  match plan.operator n with
  | .nestedSource owner => ∀ input, (plan.inputs owner)[0]? = some input → columns n = columns input
  | op => columns n = .ofList (op.schema ((plan.inputs n).map fun c => (columns c).toList)
      ((plan.nestedRoots n).map fun c => (columns c).toList))

/-- Whether the reachable nodes of a plan have the columns. -/
def HasColumns (plan : Plan) (columns : NodeId → VarSet) : Prop :=
  ∀ n, plan.Reaches n → plan.ColumnsFollow columns n

/-- Whether the schemas that are computed have the columns. -/
def Stores (plan : Plan) (columns : NodeId → VarSet) : Prop :=
  ∀ n vs, plan.Reaches n → plan.schema n = .ok vs → VarSet.ofList vs = columns n

theorem columnsFollow_iff (other : ∀ owner, plan.operator n ≠ .nestedSource owner) :
    plan.ColumnsFollow columns n ↔ columns n = .ofList ((plan.operator n).schema
      ((plan.inputs n).map fun c => (columns c).toList)
      ((plan.nestedRoots n).map fun c => (columns c).toList)) := by
  unfold ColumnsFollow
  split
  · rename_i owner operator
    exact absurd operator (other owner)
  · rfl

theorem columnsFollow_nestedSource {owner : NodeId} (operator : plan.operator n = .nestedSource owner) :
    plan.ColumnsFollow columns n ↔
      ∀ input, (plan.inputs owner)[0]? = some input → columns n = columns input := by
  unfold ColumnsFollow
  rw [operator]

theorem forall₂_sameVars (columns : NodeId → VarSet) {ids : List NodeId} {schemas : List (List Var)}
    (stored : ∀ c ∈ ids, ∀ vs, plan.schema c = .ok vs → VarSet.ofList vs = columns c)
    (computed : ids.mapM plan.schema = .ok schemas) :
    List.Forall₂ SameVars schemas (ids.map fun c => (columns c).toList) := by
  have each := mapM_ok_iff_forall₂.mp computed
  clear computed
  induction each with
  | nil => exact .nil
  | cons first _ ih =>
    refine .cons ?_ (ih fun c member => stored c (List.mem_cons_of_mem _ member))
    exact sameVars_of_ofList (stored _ List.mem_cons_self _ first)

/-- A schema that is computed from schemas with the right columns has the right columns. -/
theorem columnsFollow_iff_computed
    (stored : ∀ c ∈ plan.sources n, ∀ vs, plan.schema c = .ok vs → VarSet.ofList vs = columns c)
    {vs : List Var} (computed : plan.schemaFromChildren n = .ok vs) :
    plan.ColumnsFollow columns n ↔ VarSet.ofList vs = columns n := by
  by_cases source : ∃ owner, plan.operator n = .nestedSource owner
  · obtain ⟨owner, operator⟩ := source
    obtain ⟨input, found, schema⟩ := schemaFromChildren_of_nestedSource operator computed
    have found := input_ok_iff.mp found
    rw [columnsFollow_nestedSource operator,
      stored input (mem_sources_iff.mpr (.inr ⟨owner, operator, found⟩)) vs schema]
    refine ⟨fun follow => (follow input found).symm, fun same input' found' => ?_⟩
    cases found.symm.trans found'
    exact same.symm
  · have other : ∀ owner, plan.operator n ≠ .nestedSource owner := not_exists.mp source
    rw [schemaFromChildren_eq other] at computed
    obtain ⟨inputs, fromInputs, computed⟩ := bind_ok_iff.mp computed
    obtain ⟨nested, fromNested, computed⟩ := bind_ok_iff.mp computed
    rw [columnsFollow_iff other, ← pure_ok_iff.mp computed, eq_comm]
    refine Eq.congr (Eq.symm ?_) rfl
    refine ofList_eq_of_sameVars (Operator.sameVars_schema _ ?_ ?_)
    · exact forall₂_sameVars _ (fun c member => stored c (mem_sources_of_child
        (List.mem_append_left _ member))) fromInputs
    · exact forall₂_sameVars _ (fun c member => stored c (mem_sources_of_child
        (List.mem_append_right _ member))) fromNested

namespace WellFormed

variable (wellFormed : plan.WellFormed)

include wellFormed

/-- What follows for a node from the same for its sources holds at all reachable nodes. -/
theorem induction {P : NodeId → Prop}
    (step : ∀ n, plan.Reaches n → (∀ c ∈ plan.sources n, P c) → P n) (reached : plan.Reaches n) : P n := by
  obtain ⟨rank, falls⟩ := wellFormed.acyclic
  generalize height : rank n = h
  induction h using Nat.strong_induction_on generalizing n with
  | _ h ih =>
    subst height
    exact step n reached fun c source =>
      ih _ (falls n reached c source) (wellFormed.reaches_source reached source) rfl

/-- Schemas that follow from their sources have the columns. -/
theorem stores_of_current (has : plan.HasColumns columns) (current : plan.SchemasCurrent) :
    plan.Stores columns := by
  intro n vs reached stored
  refine wellFormed.induction
    (P := fun n => ∀ vs, plan.schema n = .ok vs → VarSet.ofList vs = columns n)
    (fun n reached known vs stored => ?_) reached vs stored
  obtain ⟨ws, stored', computed⟩ := current n reached
  cases stored.symm.trans stored'
  exact (columnsFollow_iff_computed known computed).mp (has n reached)

end WellFormed

/-- A plan has the columns of its schemas, if these follow from their sources. -/
theorem SchemasCurrent.hasColumns (current : plan.SchemasCurrent) :
    plan.HasColumns fun n => .ofList ((plan.node n).schema.getD []) := by
  have stored : ∀ n vs, plan.schema n = .ok vs →
      VarSet.ofList vs = .ofList ((plan.node n).schema.getD []) := by
    intro n vs computed
    rw [schema_ok_iff.mp computed]
    rfl
  intro n reached
  obtain ⟨vs, here, computed⟩ := current n reached
  exact (columnsFollow_iff_computed (fun c _ => stored c) computed).mpr (stored n vs here)

/-! ## Changes that keep columns -/

/-- The columns stay if the sources of every node do, and each operator makes of them the columns that
    it made before. -/
theorem HasColumns.congr (has : plan.HasColumns columns)
    (reaches : ∀ n, plan'.Reaches n → plan.Reaches n)
    (source : ∀ n owner, plan.Reaches n → plan'.operator n = .nestedSource owner →
      plan.operator n = .nestedSource owner ∧ (plan'.inputs owner)[0]? = (plan.inputs owner)[0]?)
    (other : ∀ n, plan.Reaches n → (∀ owner, plan'.operator n ≠ .nestedSource owner) →
      (∀ owner, plan.operator n ≠ .nestedSource owner) ∧
      SameVars ((plan'.operator n).schema ((plan'.inputs n).map fun c => (columns c).toList)
          ((plan'.nestedRoots n).map fun c => (columns c).toList))
        ((plan.operator n).schema ((plan.inputs n).map fun c => (columns c).toList)
          ((plan.nestedRoots n).map fun c => (columns c).toList))) : plan'.HasColumns columns := by
  intro n reached'
  have reached := reaches n reached'
  by_cases isSource : ∃ owner, plan'.operator n = .nestedSource owner
  · obtain ⟨owner, operator'⟩ := isSource
    obtain ⟨operator, same⟩ := source n owner reached operator'
    refine (columnsFollow_nestedSource operator').mpr fun input found => ?_
    exact (columnsFollow_nestedSource operator).mp (has n reached) input (same ▸ found)
  · have notSource : ∀ owner, plan'.operator n ≠ .nestedSource owner := fun owner operator =>
      isSource ⟨owner, operator⟩
    obtain ⟨notSource', same⟩ := other n reached notSource
    rw [columnsFollow_iff notSource, (columnsFollow_iff notSource').mp (has n reached)]
    exact (ofList_eq_of_sameVars same).symm

theorem HasColumns.regrouped (has : plan.HasColumns columns) (regrouped : plan.Regrouped plan') :
    plan'.HasColumns columns := by
  refine has.congr (fun n => regrouped.redrawn.reaches_iff.mp) (fun n owner _ operator =>
    ⟨(regrouped.nestedSource_iff n owner).mp operator, by rw [regrouped.inputs]⟩) fun n _ other =>
    ⟨fun owner operator => other owner ((regrouped.nestedSource_iff n owner).mpr operator), ?_⟩
  rw [regrouped.inputs, regrouped.nestedRoots]
  have same : ∀ lists : List (List Var), List.Forall₂ SameVars lists lists := fun lists =>
    List.forall₂_same.mpr fun _ _ _ => Iff.rfl
  exact (regrouped.operator n).sameVars_schema (same _) (same _)

theorem HasColumns.onlySchemas (has : plan.HasColumns columns) (only : plan.OnlySchemas plan') :
    plan'.HasColumns columns :=
  has.regrouped only.regrouped

/-- Reachable nodes of a well-formed plan have columns. -/
theorem WellFormed.exists_columns (wellFormed : plan.WellFormed) : ∃ columns, plan.HasColumns columns := by
  obtain ⟨plan', _, only, current⟩ := wellFormed.refreshSchemas
  have has := current.hasColumns
  have back : ∀ n owner, plan'.operator n = .nestedSource owner ↔ plan.operator n = .nestedSource owner :=
    fun n owner => by rw [only.operator]
  refine ⟨_, has.congr (fun n => only.reaches_iff.mpr) (fun n owner _ operator =>
    ⟨(back n owner).mpr operator, by rw [only.inputs]⟩) fun n _ other =>
    ⟨fun owner operator => other owner ((back n owner).mp operator), ?_⟩⟩
  rw [only.inputs, only.nestedRoots, only.operator]
  exact fun _ => Iff.rfl

/-- After a refresh the schemas have the columns. -/
theorem WellFormed.stores_refreshed (wellFormed : plan.WellFormed) (has : plan.HasColumns columns)
    (done : plan.refreshSchemas = .ok plan') : plan'.Stores columns := by
  have only := refreshSchemas_only done
  exact (only.redrawn.wellFormed wellFormed).stores_of_current (has.onlySchemas only)
    (wellFormed.current_refreshed done)

/-! ## Refreshing stored columns -/

/-- Whether the owners of all reachable nested sources are reachable. -/
def OwnersReachable (plan : Plan) : Prop :=
  ∀ id owner, plan.Reaches id → plan.operator id = .nestedSource owner → plan.Reaches owner

theorem OwnersReachable.reaches_source (owned : plan.OwnersReachable) (reached : plan.Reaches n)
    (source : c ∈ plan.sources n) : plan.Reaches c := by
  rcases mem_sources_iff.mp source with child | ⟨owner, operator, found⟩
  · exact reached.tail child
  · exact (owned n owner reached operator).input (List.mem_of_getElem? found)

theorem OwnersReachable.regrouped (owned : plan.OwnersReachable) (regrouped : plan.Regrouped plan') :
    plan'.OwnersReachable := fun n owner reached operator =>
  regrouped.redrawn.reaches_iff.mpr (owned n owner (regrouped.redrawn.reaches_iff.mp reached)
    ((regrouped.nestedSource_iff n owner).mp operator))

/-- Schemas that are computed once more have the columns that they had. -/
theorem Stores.refreshSchemas (stores : plan.Stores columns) (has : plan.HasColumns columns)
    (owned : plan.OwnersReachable) (done : plan.refreshSchemas = .ok plan') : plan'.Stores columns := by
  refine (foldlM_keeps (fun later => plan.OnlySchemas later ∧ later.Stores columns)
    (fun id _ mid later => ?_) ⟨.refl plan, stores⟩ done).2
  rintro ⟨only, stores⟩ recomputed
  refine ⟨only.trans (recomputeSchema_only recomputed), fun n vs reached stored => ?_⟩
  obtain ⟨ws, computed, _, _, schemas⟩ := recomputeSchema_spec recomputed
  have reached := (recomputeSchema_only recomputed).reaches_iff.mp reached
  rcases schemas n with same | ⟨rfl, changed⟩
  · exact stores n vs reached (schema_ok_iff.mpr (same.symm.trans (schema_ok_iff.mp stored)))
  · cases changed.symm.trans (schema_ok_iff.mp stored)
    refine (columnsFollow_iff_computed (fun c source vs => ?_) computed).mp
      (has.onlySchemas only n reached)
    exact stores c vs ((owned.regrouped only.regrouped).reaches_source reached source)

end Plan

end QueryOptimizer
