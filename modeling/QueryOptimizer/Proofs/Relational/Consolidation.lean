import Mathlib
import QueryOptimizer.Proofs.Plan.Producers
import QueryOptimizer.Proofs.Relational.SelectRules
import QueryOptimizer.Proofs.Transform.Changes

/-! # Results of merging assignments and projections

Two assignments, the upper of which reads nothing that the lower one assigns, can be made at once. A
projection to all columns keeps every tuple as it is, and a projection does not need another one
below it. So the slot of these rules stands for what it stood for before, whoever else reads the
nodes below.
-/

namespace QueryOptimizer

/-! ## Values of two assignments -/

theorem appendNew_appendNew (vs first second : List Var) :
    appendNew (appendNew vs first) second = appendNew vs (first ++ second) :=
  List.foldl_append.symm

namespace Tuple

variable {t : Tuple} {vs ws : List Var} {xs ys : List Scalar}

/-- Values of variables that are all different can be added one after the other or at once. -/
theorem extend_extend (length : vs.length = xs.length) (apart : ∀ v ∈ ws, v ∉ vs) :
    (t.extend vs xs).extend ws ys = t.extend (vs ++ ws) (xs ++ ys) := by
  funext v
  unfold extend
  rw [List.zip_append length, List.lookup_append]
  by_cases listed : v ∈ vs
  · have fresh : v ∉ ws := fun later => apart v later listed
    simp [lookup_zip_none fresh]
  · simp [lookup_zip_none listed]

theorem restrict_of_within (within : t.Within vs) : t.restrict vs = t :=
  (Within.restrict t vs).eq_of_agreeOn within fun _ member => restrict_of_mem member

theorem restrict_restrict (fewer : ∀ v ∈ ws, v ∈ vs) : (t.restrict vs).restrict ws = t.restrict ws := by
  funext v
  unfold restrict
  by_cases listed : v ∈ ws
  · simp [listed, fewer v listed]
  · simp [listed]

end Tuple

theorem Expr.evaluateTo_append {I : Interpretation} {t : Tuple} {es fs : List Expr}
    {row : List Scalar} : EvaluateTo I t (es ++ fs) row ↔
      ∃ xs ys, row = xs ++ ys ∧ EvaluateTo I t es xs ∧ EvaluateTo I t fs ys := by
  induction es generalizing row with
  | nil =>
    constructor
    · exact fun values => ⟨[], row, rfl, rfl, values⟩
    · rintro ⟨_, ys, rfl, rfl, values⟩
      exact values
  | cons e es ih =>
    constructor
    · rintro ⟨x, rest, rfl, first, values⟩
      obtain ⟨xs, ys, rfl, inner, outer⟩ := ih.mp values
      exact ⟨x :: xs, ys, rfl, ⟨x, xs, rfl, first, inner⟩, outer⟩
    · rintro ⟨_, ys, rfl, ⟨x, xs, rfl, first, inner⟩, outer⟩
      exact ⟨x, xs ++ ys, rfl, first, ih.mpr ⟨xs, ys, rfl, inner, outer⟩⟩

section Rows

variable {α β γ : Type} {R : α → β → Prop} {S : β → γ → Prop} {as : List α}

/-- A label for each item gives one result for each. -/
theorem exists_labels_map_iff {f : α → β → γ} {out : List γ} :
    (∃ labels, List.Forall₂ R as labels ∧ out = (as.zip labels).map fun entry => f entry.1 entry.2) ↔
      List.Forall₂ (fun a c => ∃ b, R a b ∧ c = f a b) as out := by
  induction as generalizing out with
  | nil => simp
  | cons a as ih =>
    constructor
    · rintro ⟨_, _ | ⟨first, rest⟩, rfl⟩
      exact .cons ⟨_, first, rfl⟩ (ih.mp ⟨_, rest, rfl⟩)
    · rintro (_ | ⟨⟨b, first, rfl⟩, rest⟩)
      obtain ⟨labels, each, rfl⟩ := ih.mpr rest
      exact ⟨b :: labels, .cons first each, rfl⟩

theorem exists_forall₂_iff {cs : List γ} :
    (∃ bs, List.Forall₂ R as bs ∧ List.Forall₂ S bs cs) ↔
      List.Forall₂ (Relation.Comp R S) as cs := by
  induction as generalizing cs with
  | nil => simp
  | cons a as ih =>
    constructor
    · rintro ⟨_, _ | ⟨first, rest⟩, _ | ⟨second, others⟩⟩
      exact .cons ⟨_, first, second⟩ (ih.mp ⟨_, rest, others⟩)
    · rintro (_ | ⟨⟨b, first, second⟩, rest⟩)
      obtain ⟨bs, below, above⟩ := ih.mpr rest
      exact ⟨b :: bs, .cons first below, .cons second above⟩

end Rows

namespace Operator

variable {I : Interpretation} {us out : List Tuple}

/-- The tuple that an assignment may make of another. -/
def Assigns (I : Interpretation) (vars : List Var) (exprs : List Expr) (t u : Tuple) : Prop :=
  ∃ row, Expr.EvaluateTo I t exprs row ∧ u = t.extend vars row

theorem turns_assign {vars : List Var} {exprs : List Expr} :
    (assign vars exprs).Turns I us out ↔ List.Forall₂ (Assigns I vars exprs) us out :=
  exists_labels_map_iff (R := fun t row => Expr.EvaluateTo I t exprs row)
    (f := fun t row => t.extend vars row)

theorem assigns_comp_iff {innerVars vars : List Var} {innerExprs exprs : List Expr} {t u : Tuple}
    (length : innerExprs.length = innerVars.length) (apart : ∀ v ∈ vars, v ∉ innerVars)
    (unread : ∀ v ∈ Expr.usedVarsOf exprs, v ∉ innerVars) :
    Relation.Comp (Assigns I innerVars innerExprs) (Assigns I vars exprs) t u ↔
      Assigns I (innerVars ++ vars) (innerExprs ++ exprs) t u := by
  have agree : ∀ row, (t.extend innerVars row).AgreeOn t (Expr.occurrencesList exprs) :=
    fun row v occurs => Tuple.extend_of_not_mem (unread v (mem_distinct.mpr occurs))
  have joined : ∀ {row later}, Expr.EvaluateTo I t innerExprs row →
      (t.extend innerVars row).extend vars later = t.extend (innerVars ++ vars) (row ++ later) :=
    fun values => Tuple.extend_extend (length.symm.trans values.length_eq.symm) apart
  constructor
  · rintro ⟨_, ⟨row, values, rfl⟩, later, laterValues, rfl⟩
    refine ⟨row ++ later, Expr.evaluateTo_append.mpr ⟨row, later, rfl, values, ?_⟩, joined values⟩
    exact laterValues.congr (agree row)
  · rintro ⟨_, values, rfl⟩
    obtain ⟨row, later, rfl, values, laterValues⟩ := Expr.evaluateTo_append.mp values
    refine ⟨_, ⟨row, values, rfl⟩, later, laterValues.congr fun v occurs => ?_, (joined values).symm⟩
    exact (agree row v occurs).symm

end Operator

namespace Plan

variable {plan plan' : Plan} {slot : Slot} {id n x : NodeId} {I : Interpretation}

/-- Whether every assignment has as many expressions as variables. -/
def AssignsMatched (plan : Plan) : Prop :=
  ∀ n, plan.Reaches n → ∀ vars exprs, plan.operator n = .assign vars exprs →
    exprs.length = vars.length

theorem SchemasCurrent.columns_assign (current : plan.SchemasCurrent) (reached : plan.Reaches n)
    {vars : List Var} {exprs : List Expr} (operator : plan.operator n = .assign vars exprs)
    (inputs : plan.inputs n = [x]) : plan.columns n = appendNew (plan.columns x) vars := by
  rw [current.columns_plain reached operator trivial, inputs]
  exact congrArg (appendNew · vars) List.flatten_singleton

theorem SchemasCurrent.columns_project (current : plan.SchemasCurrent) (reached : plan.Reaches n)
    {vars : List Var} (operator : plan.operator n = .project vars) : plan.columns n = vars :=
  current.columns_plain reached operator trivial

section Rules

variable (wellFormed : plan.WellFormed) (current : plan.SchemasCurrent)
  (holds : plan.HoldsReachable slot) (here : plan.nodeAt slot = .ok id)

include wellFormed current holds here

theorem keeps_mergeAssigns (once : plan.ProducedOnce) (matched : plan.AssignsMatched)
    (done : plan.mergeAssigns slot = .ok (some plan')) : plan.KeepsResult I slot id plan' := by
  obtain ⟨id', inner, x, vars, exprs, innerVars, innerExprs, here', isInput, isBelow, operator,
    innerOperator, unread, rfl⟩ := mergeAssigns_some done
  obtain rfl : id = id' := Except.ok.inj (here.symm.trans here')
  have reached : plan.Reaches id := holds.reaches here
  obtain ⟨inputs, reachedInner⟩ :=
    wellFormed.inputs_single reached (by rw [operator]; rfl) isInput
  obtain ⟨innerInputs, _⟩ :=
    wellFormed.inputs_single reachedInner (by rw [innerOperator]; rfl) isBelow
  have different : inner ≠ id := wellFormed.ne_of_input reached (List.mem_of_getElem? isInput)
  have apart : ∀ v ∈ vars, v ∉ innerVars := fun v outerVar innerVar =>
    different.symm (once.unique reached reachedInner (by rw [operator]; exact outerVar)
      (by rw [innerOperator]; exact innerVar))
  have length := matched inner reachedInner innerVars innerExprs innerOperator
  have plain : (plan.operator id).IsPlain := by rw [operator]; trivial
  have mergedPlain : (Operator.assign (innerVars ++ vars) (innerExprs ++ exprs)).IsPlain := trivial
  obtain ⟨reworked, stands⟩ := absorb_reworked wellFormed holds here plain mergedPlain rfl inputs
    (List.mem_of_getElem? isBelow)
  refine reworked.keepsResult current fun plan'' refreshed => ?_
  have schema : ∀ vs, (Operator.assign (innerVars ++ vars) (innerExprs ++ exprs)).schema [vs] [] =
      (Operator.assign vars exprs).schema [(Operator.assign innerVars innerExprs).schema [vs] []] [] := by
    intro vs
    change appendNew [vs].flatten (innerVars ++ vars) =
      appendNew [appendNew [vs].flatten innerVars].flatten vars
    rw [List.flatten_singleton, List.flatten_singleton, appendNew_appendNew]
  obtain ⟨columns, same⟩ := refreshed.fused current stands reached operator trivial rfl innerOperator
    trivial rfl inputs innerInputs mergedPlain rfl schema
  refine ⟨columns, fun frames _ ts => same frames ts fun us _ => ?_⟩
  simp only [Operator.turns_assign]
  have comp : Operator.Assigns I (innerVars ++ vars) (innerExprs ++ exprs) =
      Relation.Comp (Operator.Assigns I innerVars innerExprs) (Operator.Assigns I vars exprs) := by
    funext t u
    exact propext (Operator.assigns_comp_iff length apart unread).symm
  rw [exists_forall₂_iff, comp]

theorem keeps_dropRedundantProject (scope : plan.InScope)
    (done : plan.dropRedundantProject slot = .ok (some plan')) : plan.KeepsResult I slot id plan' := by
  obtain ⟨id', input, vars, here', isInput, operator, redundant⟩ := dropRedundantProject_some done
  obtain rfl : id = id' := Except.ok.inj (here.symm.trans here')
  have reached : plan.Reaches id := holds.reaches here
  obtain ⟨inputs, reachedInput⟩ :=
    wellFormed.inputs_single reached (by rw [operator]; rfl) isInput
  rcases redundant with ⟨computed, placed⟩ | ⟨inner, x, innerOperator, isBelow, rfl⟩
  · have reworked := drop_reworked wellFormed holds here (.single (List.mem_of_getElem? isInput)) placed
    refine reworked.keepsResult current fun plan'' refreshed => ?_
    have isBase : input ∈ [input] := List.mem_cons_self
    have columns : plan.columns input = vars := columns_of_schema computed
    constructor
    · rw [refreshed.columns input isBase, columns, current.columns_project reached operator]
    · intro frames invoked ts
      rw [refreshed.yields input isBase, yields_single_iff operator trivial rfl inputs]
      have kept : ∀ {us}, plan.Yields I frames input us → us.map (fun t => t.restrict vars) = us := by
        intro us run
        have within := run.within current reachedInput (invoked.framesWithin current)
        rw [columns] at within
        calc us.map (fun t => t.restrict vars)
          _ = us.map fun t => t :=
              List.map_congr_left fun t member => Tuple.restrict_of_within (within t member)
          _ = us := List.map_id' us
      constructor
      · exact fun run => ⟨ts, run, (kept run).symm⟩
      · rintro ⟨us, run, rfl⟩
        exact (kept run).symm ▸ run
  · have plain : (plan.operator id).IsPlain := by rw [operator]; trivial
    have reworked := absorb_reworked wellFormed holds here plain plain (by rw [operator]; rfl) inputs
      (List.mem_of_getElem? isBelow)
    rw [setInput_setOperator_self, operator] at reworked
    obtain ⟨reworked, stands⟩ := reworked
    obtain ⟨innerInputs, _⟩ :=
      wellFormed.inputs_single reachedInput (by rw [innerOperator]; rfl) isBelow
    refine reworked.keepsResult current fun plan'' refreshed => ?_
    have fewer : ∀ v ∈ vars, v ∈ inner := by
      intro v kept
      have isProject : ∀ nested, plan.operator id ≠ .subplan nested := by
        rw [operator]
        intro nested impossible
        cases impossible
      obtain ⟨c, member, inside⟩ := scope id reached isProject v (by rw [operator]; exact kept)
      rw [inputs, List.mem_singleton] at member
      rwa [member, current.columns_project reachedInput innerOperator] at inside
    obtain ⟨columns, same⟩ := refreshed.fused current stands reached operator trivial rfl innerOperator
      trivial rfl inputs innerInputs trivial rfl fun _ => rfl
    refine ⟨columns, fun frames _ ts => same frames ts fun us _ => ?_⟩
    have twice : (us.map fun t => t.restrict inner).map (fun t => t.restrict vars) =
        us.map fun t => t.restrict vars := by
      rw [List.map_map]
      exact List.map_congr_left fun t _ => Tuple.restrict_restrict fewer
    constructor
    · exact fun turns => ⟨_, rfl, turns.trans twice.symm⟩
    · rintro ⟨_, rfl, turns⟩
      exact turns.trans twice

end Rules

end Plan

/-- Every firing of a rule that merges assignments or drops a projection leaves the result of its slot
    as it was: once the schemas are computed again, the node in the slot has the same columns and may
    yield the same lists of tuples. -/
theorem consolidation_keeps_result {r r' : RuleState} {s s' : Session} {slot : Slot} {id : NodeId}
    {I : Interpretation} (wellFormed : s.plan.WellFormed) (current : s.plan.SchemasCurrent)
    (valid : s.plan.validate false = .ok ()) (once : s.plan.ProducedOnce)
    (matched : s.plan.AssignsMatched) (consolidates : r.rule ∈ [.mergeAssigns, .dropRedundantProject])
    (holds : s.plan.HoldsReachable slot) (here : s.plan.nodeAt slot = .ok id)
    (fired : r.before slot s = .ok (r', s', true)) :
    ∃ plan new, s'.plan.refreshSchemas = .ok plan ∧ plan.nodeAt slot = .ok new ∧
      plan.columns new = s.plan.columns id ∧ ∀ frames, s.plan.Invocation I frames →
        ∀ ts, plan.Yields I frames new ts ↔ s.plan.Yields I frames id ts := by
  have kept : s.plan.KeepsResult I slot id s'.plan := by
    unfold RuleState.before at fired
    simp only [List.mem_cons, List.not_mem_nil, or_false] at consolidates
    rcases consolidates with rule | rule <;> rw [rule] at fired <;>
      obtain ⟨found, done, fired⟩ := bind_ok_iff.mp fired <;>
      obtain rfl := RuleState.outcome_fired (pure_ok_iff.mp fired)
    · exact Plan.keeps_mergeAssigns wellFormed current holds here once matched done
    · exact Plan.keeps_dropRedundantProject wellFormed current holds here
        (Plan.inScope_of_validate valid) done
  obtain ⟨plan, new, refreshed, placed, columns, same⟩ := kept
  exact ⟨plan, new, refreshed, placed, columns, same⟩

/-- Two assignments, the lower of which is read by a union as well. -/
def sharedAssignSession : Session where
  plan := {
    nodes := [
      some { Node.above .emptySource [] with schema := some [] },
      some { Node.above (.scan "S" [1]) [0] with schema := some [1] },
      some { Node.above (.assign [2] [.var 1]) [1] with schema := some [1, 2] },
      some { Node.above (.assign [3] [.call .eq [.var 1, .var 1] []]) [2] with
        schema := some [1, 2, 3] },
      some { Node.above (.unionAll [⟨3, 2, 4⟩]) [3, 2] with schema := some [4] }],
    root := 4 }
  context := { catalog := ⟨[]⟩ }

/-- Two assignments are merged although the lower one has another reader. -/
theorem consolidation_keeps_result_shared : ∃ r s plan new,
    ({ rule := .mergeAssigns } : RuleState).before (.input 4 0) sharedAssignSession =
        .ok (r, s, true) ∧
      s.plan.refreshSchemas = .ok plan ∧ plan.nodeAt (.input 4 0) = .ok new ∧
      plan.columns new = [1, 2, 3] ∧ plan.inputs 4 = [3, 2] ∧ plan.inputs 3 = [1] ∧
      ∀ ts, plan.Yields settledWorld .outer new ts ↔
        sharedAssignSession.plan.Yields settledWorld .outer 3 ts := by
  have holds : sharedAssignSession.plan.HoldsReachable (.input 4 0) := by
    intro holder isHolder
    cases isHolder
    exact .refl
  have wellFormed : sharedAssignSession.plan.WellFormed :=
    .of_flat ⟨by decide, by decide⟩ (by decide) (by decide) (by decide)
  have reaches : ∀ {id}, sharedAssignSession.plan.Reaches id → id ∈ [4, 3, 2, 1, 0] :=
    Plan.mem_reachable
  have current : sharedAssignSession.plan.SchemasCurrent := by
    intro id reached
    have member := reaches reached
    fin_cases member <;> exact ⟨_, rfl, rfl⟩
  have matched : sharedAssignSession.plan.AssignsMatched := by
    intro n reached vars exprs operator
    have member := reaches reached
    fin_cases member <;> cases operator <;> rfl
  obtain ⟨plan, new, refreshed, here, columns, same⟩ := consolidation_keeps_result wellFormed current
    rfl (by decide) matched (r := { rule := .mergeAssigns }) (by decide) holds rfl rfl
  refine ⟨_, _, plan, new, rfl, refreshed, here, columns, ?_, ?_, same .outer .outer⟩ <;>
    cases refreshed <;> rfl

end QueryOptimizer
