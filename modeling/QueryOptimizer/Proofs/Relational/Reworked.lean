import Mathlib
import QueryOptimizer.Proofs.Plan.Rework
import QueryOptimizer.Proofs.Relational.Steps

/-! # Runs of a plan after a local change

After a layer of nodes was changed and the schemas were computed again, what is below the layer has
the columns and the runs that it had. What the layer yields then follows from its operators.
-/

namespace QueryOptimizer.Plan

variable {plan mid plan' plan'' : Plan} {slot : Slot} {old new n b x y : NodeId} {op : Operator}
  {layer base : List NodeId} {I : Interpretation} {frames : Frames} {ts : List Tuple}

/-- A plan after a local change and the refresh that follows it. -/
structure Refreshed (plan : Plan) (slot : Slot) (new : NodeId) (layer base : List NodeId)
    (mid plan'' : Plan) : Prop where
  here : plan''.nodeAt slot = .ok new
  current : plan''.SchemasCurrent
  reached : ∀ n ∈ layer, plan''.Reaches n
  operator : ∀ n ∈ layer, plan''.operator n = mid.operator n
  inputs : ∀ n ∈ layer, plan''.inputs n = mid.inputs n
  columns : ∀ b ∈ base, plan''.columns b = plan.columns b
  yields : ∀ b ∈ base, ∀ I frames ts, plan''.Yields I frames b ts ↔ plan.Yields I frames b ts

theorem Refreshed.stands {ins : List NodeId} (member : n ∈ layer)
    (refreshed : plan.Refreshed slot new layer base mid plan'') (stands : mid.Stands n op ins) :
    plan''.operator n = op ∧ plan''.inputs n = ins :=
  ⟨(refreshed.operator n member).trans stands.operator, (refreshed.inputs n member).trans stands.inputs⟩

/-- The refresh after a local change succeeds, and leaves what is below the layer as it was. -/
theorem Reworked.refresh (reworked : plan.Reworked slot old new layer base mid plan')
    (current : plan.SchemasCurrent) :
    ∃ plan'', plan'.refreshSchemas = .ok plan'' ∧ plan.Refreshed slot new layer base mid plan'' := by
  obtain ⟨plan'', done, only, current'⟩ := reworked.wellFormed.refreshSchemas
  have same : ∀ n, plan.Foundation base n → plan''.node n = plan.node n := fun n below =>
    reworked.foundation_node only current current' below
  have closed : ∀ n, plan.Foundation base n → ∀ c ∈ plan.children n, plan.Foundation base c :=
    fun n below c member => below.source (mem_sources_of_child member)
  have closed' : ∀ n, plan.Foundation base n → ∀ c ∈ plan''.children n, plan.Foundation base c := by
    intro n below c member
    rw [children_congr (same n below)] at member
    exact closed n below c member
  refine ⟨plan'', done, ⟨(only.nodeAt slot new).mpr reworked.rewired.here, current', ?_, ?_, ?_, ?_, ?_⟩⟩
  · exact fun n member => only.reaches_iff.mpr (reworked.reaches_layer member)
  · intro n member
    rw [only.operator]
    exact congrArg Node.operator (reworked.final_layer member)
  · exact fun n member => (only.inputs n).trans (inputs_congr (reworked.final_layer member))
  · intro b member
    unfold Plan.columns
    rw [same b (.of_mem member)]
  · exact fun b member I frames ts =>
      ⟨fun run => run.transfer closed' (fun n below => (same n below).symm) (.of_mem member),
        fun run => run.transfer closed same (.of_mem member)⟩

/-- Whether a node after a change stands for one before it: the columns are the same, and so are
    the lists of tuples that it may yield in any invocation. -/
def SameResult (plan : Plan) (I : Interpretation) (old : NodeId) (plan' : Plan) (new : NodeId) :
    Prop :=
  plan'.columns new = plan.columns old ∧ ∀ frames, plan.Invocation I frames → ∀ ts,
    plan'.Yields I frames new ts ↔ plan.Yields I frames old ts

/-! ## Columns of plain nodes -/

/-- An operator that adds no variable has the columns of its input. -/
theorem SchemasCurrent.columns_thin (current : plan.SchemasCurrent) (reached : plan.Reaches n)
    (operator : plan.operator n = op) (plain : op.IsPlain) (thin : ∀ vs, op.schema [vs] [] = vs)
    (inputs : plan.inputs n = [x]) : plan.columns n = plan.columns x := by
  rw [current.columns_plain reached operator plain, inputs]
  exact thin (plan.columns x)

/-- A select has the columns of its input. -/
theorem SchemasCurrent.columns_select (current : plan.SchemasCurrent) (reached : plan.Reaches n)
    {condition : Expr} (operator : plan.operator n = .select condition) (inputs : plan.inputs n = [x]) :
    plan.columns n = plan.columns x :=
  current.columns_thin reached operator trivial (fun _ => rfl) inputs

/-- A join has the columns of both sides. -/
theorem SchemasCurrent.columns_join (current : plan.SchemasCurrent) (reached : plan.Reaches n)
    {kind : JoinKind} {condition : Expr} (operator : plan.operator n = .join kind condition)
    (inputs : plan.inputs n = [x, y]) : plan.columns n = plan.columns x ++ plan.columns y := by
  rw [current.columns_plain reached operator trivial, inputs]
  simp [Operator.schema]

/-! ## What operators read -/

/-- The expressions of an operator read what its inputs have. -/
theorem InScope.reads (scope : plan.InScope) (reached : plan.Reaches n)
    (operator : plan.operator n = op) {e : Expr} (member : e ∈ op.exprs) :
    ∀ v ∈ e.occurrences, ∃ c ∈ plan.inputs n, v ∈ plan.columns c := by
  subst operator
  intro v occurs
  refine scope n reached (fun nested isSubplan => ?_) v (Operator.mem_used member occurs)
  rw [isSubplan] at member
  cases member

theorem InScope.reads_single (scope : plan.InScope) (reached : plan.Reaches n)
    (operator : plan.operator n = op) (inputs : plan.inputs n = [x]) :
    ∀ v ∈ Expr.occurrencesList op.exprs, v ∈ plan.columns x := by
  intro v occurs
  rw [Expr.occurrencesList_eq] at occurs
  obtain ⟨e, member, occurs⟩ := List.mem_flatMap.mp occurs
  obtain ⟨c, isInput, inside⟩ := scope.reads reached operator member v occurs
  rw [inputs] at isInput
  exact List.mem_singleton.mp isInput ▸ inside

/-- A select reads what its input has. -/
theorem InScope.select (scope : plan.InScope) (reached : plan.Reaches n) {condition : Expr}
    (operator : plan.operator n = .select condition) (inputs : plan.inputs n = [x]) :
    ∀ v ∈ condition.occurrences, v ∈ plan.columns x := fun v occurs =>
  scope.reads_single reached operator inputs v (Expr.mem_occurrencesList List.mem_cons_self occurs)

end QueryOptimizer.Plan
