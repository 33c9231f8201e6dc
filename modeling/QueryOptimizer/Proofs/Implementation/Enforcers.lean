import Mathlib
import QueryOptimizer.Proofs.Implementation.Steps
import QueryOptimizer.Proofs.Plan.Padding

/-! # Enforcement touches enforcers only

Each step of enforcement keeps the outline of the plan and the schema of its result. So does a whole run.
-/

namespace QueryOptimizer

/-- Whether sorts implement orders only. -/
def Plan.SortsOrder (plan : Plan) : Prop :=
  ∀ n physical order, plan.Reaches n → (plan.node n).physical = some physical →
    physical.sortOrder? = some order → ∃ columns top, plan.operator n = .order columns top

theorem Operator.Admits.isOrder {op : Operator} {physical : Physical} {order : List OrderColumn}
    (admits : op.Admits physical) (sorts : physical.sortOrder? = some order) :
    ∃ columns top, op = .order columns top := by
  cases op with
  | order columns top => exact ⟨columns, top, rfl⟩
  | exchange => cases physical <;> cases admits <;> cases sorts
  | join => obtain rfl | ⟨_, _, rfl | rfl⟩ := admits <;> cases sorts
  | groupBy => obtain ⟨_, _, rfl | rfl⟩ := admits <;> cases sorts
  | insertDelete =>
    obtain ⟨_, rfl⟩ := admits
    cases sorts
  | _ =>
    cases admits
    cases sorts

/-- What shows up when an order is taken out has the same schema. -/
theorem Plan.Uncovers.leads {plan : Plan} {id below : NodeId} (uncovers : plan.Uncovers id below)
    (wellFormed : plan.WellFormed) (current : plan.SchemasCurrent) (reached : plan.Reaches id)
    (passes : (plan.operator id).Passes) :
    plan.Leads id below ∧ (plan.node below).schema = (plan.node id).schema := by
  have arity := wellFormed.arity id reached
  rw [passes.arity] at arity
  obtain ⟨input, inputs⟩ := List.length_eq_one_iff.mp arity
  have first : plan.below? id = some input := by
    rw [below?_of_passes passes, inputs]
    rfl
  have schema := schema_of_passes passes inputs (current id reached)
  rcases uncovers with found | ⟨project, vars, found, operator, found', stored⟩
  · rw [inputs] at found
    cases found
    exact ⟨.single first, schema.symm⟩
  · rw [inputs] at found
    cases found
    have stored := schema_ok_iff.mp stored
    have second : plan.below? input = some below := by
      unfold below?
      rw [operator, found']
      simp [Option.filter, stored]
    obtain ⟨vs, storedInput, computed⟩ := current input (reached.input (by rw [inputs]; simp))
    rw [schemaFromChildren_eq (by rw [operator]; simp)] at computed
    obtain ⟨_, _, computed⟩ := bind_ok_iff.mp computed
    obtain ⟨_, _, computed⟩ := bind_ok_iff.mp computed
    have same := pure_ok_iff.mp computed
    rw [operator] at same
    refine ⟨.tail (.single first) second, ?_⟩
    rw [schema, stored, schema_ok_iff.mp storedInput, ← same]
    rfl

namespace Session

variable {s s' : Session} {top : Option NodeId}

/-- A session that is ready for enforcement on a plan with schemas. -/
structure Prepared (s : Session) : Prop where
  ready : s.Ready
  current : s.plan.SchemasCurrent
  sorts : s.plan.SortsOrder

theorem Step.prepared (step : s.Step s') (prepared : s.Prepared) :
    s'.Prepared ∧ s.plan.SameOutline s'.plan := by
  have ready' := step.ready prepared.ready
  obtain ⟨ready, current, sorts⟩ := prepared
  cases step with
  | note sizes agrees =>
    have plan : s'.plan = s.plan := agrees.plan
    rw [plan]
    exact ⟨⟨ready', plan ▸ current, plan ▸ sorts⟩, .refl _⟩
  | @insert _ _ _ new node plan reached passes fits inserted =>
    refine ⟨⟨ready', inserted.schemasCurrent ready.wellFormed reached passes current,
      fun n physical order reachedN chosen isSort => ?_⟩,
      inserted.sameOutline ready.wellFormed reached passes current⟩
    rcases inserted.reaches_cases reached passes reachedN with rfl | reachedN
    · obtain ⟨physical', fits, admits⟩ := fits
      cases fits.symm.trans (inserted.newPhysical.symm.trans chosen)
      obtain ⟨columns, top, operator⟩ := admits.isOrder isSort
      exact ⟨columns, top, inserted.stands.operator.trans operator⟩
    · have old := inserted.ne_new ready.wellFormed reachedN
      obtain ⟨columns, top, operator⟩ :=
        sorts n physical order reachedN ((inserted.physical n old).symm.trans chosen) isSort
      exact ⟨columns, top, (inserted.operator n old).trans operator⟩
  | @remove slot id below physical order plan plan' holds here chosen isSort notTop uncovers placed
        refreshed =>
      have reached := holds.reaches here
      have reworked := Plan.drop_reworked ready.wellFormed holds here uncovers.feeds placed
      have only := Plan.refreshSchemas_only refreshed
      have passes : (s.plan.operator id).Passes := by
        obtain ⟨columns, top, operator⟩ := sorts id physical order reached chosen isSort
        cases top with
        | none => exact .inr ⟨columns, operator⟩
        | some k => exact absurd operator (notTop columns k)
      obtain ⟨leads, same⟩ := uncovers.leads ready.wellFormed current reached passes
      refine ⟨⟨ready', reworked.wellFormed.current_refreshed refreshed, fun n physical order reachedN chosen isSort => ?_⟩,
        reworked.sameOutline refreshed current same leads⟩
      have physicalN := (only.physical n).trans (reworked.rewired.physical n)
      obtain ⟨columns, top, operator⟩ := sorts n physical order
        (reworked.reaches_refreshed refreshed reachedN) (physicalN.symm.trans chosen) isSort
      obtain ⟨nested, changed, _⟩ := reworked.rewired.operator n
      refine ⟨columns, top, (only.operator n).trans (changed.trans ?_)⟩
      rw [operator]
      rfl

theorem Moves.sameOutline (moves : Moves top s s') (prepared : s.Prepared) :
    s.plan.SameOutline s'.plan :=
  (Relation.ReflTransGen.head_induction_on
    (motive := fun s _ => s.Prepared → s.plan.SameOutline s'.plan) moves.steps (fun _ => .refl _)
    fun step _ ih prepared => by
      obtain ⟨prepared', same⟩ := step.prepared prepared
      exact same.trans (ih prepared')) prepared

end Session

end QueryOptimizer
