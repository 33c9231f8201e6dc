import Mathlib
import QueryOptimizer.Proofs.Relational.SelectRules
import QueryOptimizer.Proofs.Transform.Changes

/-! # Results of the limit rules

Of tuples that can be counted, a limit over another one keeps what their merged limit keeps, even
where the sum of the offsets is beyond all counts. A limit may change places with a projection and
with an assignment. So the slot of a limit rule stands for what it stood for before, after every
firing.
-/

namespace QueryOptimizer

namespace Limit

variable {α : Type}

/-- The items that a limit keeps. -/
def window (limit : Limit) (items : List α) : List α :=
  (items.drop (limit.offset.getD 0)).take limit.count

theorem count_merge (outer inner : Limit) :
    (outer.merge inner).count = min outer.count (inner.count - outer.offset.getD 0) := by
  unfold merge
  dsimp only
  split <;> rfl

/-- A merged limit skips what both limits skip, or as much as can be counted. -/
theorem offset_merge (outer inner : Limit) : (outer.merge inner).offset.getD 0 =
    min (inner.offset.getD 0 + outer.offset.getD 0) (countBound - 1) := by
  unfold merge
  dsimp only
  split
  · rename_i none
    exact none.symm
  · rfl

theorem window_merge (outer inner : Limit) {items : List α} (counted : items.length < countBound) :
    (outer.merge inner).window items = outer.window (inner.window items) := by
  have nested : outer.window (inner.window items) =
      (items.drop (inner.offset.getD 0 + outer.offset.getD 0)).take
        (min outer.count (inner.count - outer.offset.getD 0)) := by
    unfold window
    rw [List.drop_take, List.drop_drop, List.take_take]
  rw [nested, window, count_merge, offset_merge]
  rcases Nat.lt_or_ge (inner.offset.getD 0 + outer.offset.getD 0) countBound with small | large
  · rw [Nat.min_eq_left (Nat.le_sub_one_of_lt small)]
  · -- Both skip everything.
    rw [List.drop_eq_nil_of_le (by omega), List.drop_eq_nil_of_le (by omega)]

end Limit

namespace Plan

variable {plan mid plan' plan'' : Plan} {slot : Slot} {id child x : NodeId} {I : Interpretation}

/-- Whether everything that feeds a node has a countable number of tuples, and every assignment
    there has values in all of its tuples. -/
structure Tractable (plan : Plan) (I : Interpretation) (frames : Frames) (id : NodeId) : Prop where
  counted : ∀ n ts, plan.Feeds id n → plan.Yields I frames n ts → ts.length < countBound
  assigned : ∀ n input vars exprs ts, plan.Feeds id n → plan.operator n = .assign vars exprs →
    plan.inputs n = [input] → plan.Yields I frames input ts →
      ∀ t ∈ ts, ∃ row, Expr.EvaluateTo I t exprs row

/-- Whether the slot has the same columns after a change, once the schemas are computed again, and in
    all frames that make the node tractable the same tuples. -/
def KeepsTractable (plan : Plan) (I : Interpretation) (slot : Slot) (id : NodeId) (plan' : Plan) :
    Prop :=
  ∃ plan'' new, plan'.refreshSchemas = .ok plan'' ∧ plan''.nodeAt slot = .ok new ∧
    plan''.columns new = plan.columns id ∧ ∀ frames, plan.Tractable I frames id →
      ∀ ts, plan''.Yields I frames new ts ↔ plan.Yields I frames id ts

section Rules

variable (wellFormed : plan.WellFormed) (current : plan.SchemasCurrent)
  (holds : plan.HoldsReachable slot) (here : plan.nodeAt slot = .ok id)

include wellFormed current holds here

theorem keeps_mergeLimits (done : plan.mergeLimits slot = .ok (some plan')) :
    plan.KeepsTractable I slot id plan' := by
  obtain ⟨id', inner, x, above, beneath, here', operator, isInput, innerOperator, isBelow, placed⟩ :=
    mergeLimits_some done
  obtain rfl : id = id' := Except.ok.inj (here.symm.trans here')
  have reached : plan.Reaches id := holds.reaches here
  obtain ⟨inputs, reachedInner⟩ :=
    wellFormed.inputs_single reached (by rw [operator]; rfl) isInput
  obtain ⟨innerInputs, _⟩ :=
    wellFormed.inputs_single reachedInner (by rw [innerOperator]; rfl) isBelow
  obtain ⟨mid, n, reworked, stands⟩ := fuse_reworked wellFormed holds (plan.mode id) rfl (by trivial)
    here (List.mem_of_getElem? isInput) (List.mem_of_getElem? isBelow) placed
  obtain ⟨plan'', refreshDone, refreshed⟩ := reworked.refresh current
  obtain ⟨columns, same⟩ := refreshed.fused current stands reached operator trivial rfl innerOperator
    trivial rfl inputs innerInputs trivial rfl fun _ => rfl
  refine ⟨plan'', n, refreshDone, refreshed.here, columns, fun frames tractable ts =>
    same frames ts fun us run => ?_⟩
  have feeds : plan.Feeds id x :=
    .two (List.mem_of_getElem? isInput) (List.mem_of_getElem? isBelow)
  have merged := above.window_merge beneath (tractable.counted x us feeds run)
  constructor
  · exact fun turns => ⟨beneath.window us, rfl, turns.trans merged⟩
  · rintro ⟨_, rfl, turns⟩
    exact turns.trans merged.symm

theorem keeps_pushLimit (isMatch : Rule.pushLimit.pattern.isMatch plan id = true)
    (done : plan.pushLimit slot = .ok (some plan')) : plan.KeepsTractable I slot id plan' := by
  obtain ⟨count, offset, child, operator, inputs, passed, _, swapped⟩ :=
    pushLimit_some here isMatch done
  have reached : plan.Reaches id := holds.reaches here
  have isInput : child ∈ plan.inputs id := by simp [inputs]
  have unary : (plan.operator child).IsPlain ∧ (plan.operator child).arity = 1 := by
    rcases passed with ⟨_, passed⟩ | ⟨_, _, passed⟩ <;> rw [passed] <;> exact ⟨trivial, rfl⟩
  obtain ⟨x, childInputs⟩ := List.length_eq_one_iff.mp
    ((wellFormed.arity child (reached.input isInput)).trans unary.2)
  obtain ⟨mid, reworked, standsId, standsChild⟩ := swapWithInput_reworked wellFormed holds here
    (by rw [operator]; trivial) unary.1 inputs childInputs swapped
  obtain ⟨plan'', refreshDone, refreshed⟩ := reworked.refresh current
  rw [operator] at standsId
  obtain ⟨columns, same⟩ := refreshed.swapped current reached operator trivial rfl (fun _ => rfl) rfl
    unary.1 unary.2 inputs childInputs standsId standsChild
  refine ⟨plan'', child, refreshDone, refreshed.here, columns, fun frames tractable =>
    same frames fun us run => ?_⟩
  rcases passed with ⟨vars, passed⟩ | ⟨vars, exprs, passed⟩ <;> rw [passed]
  · exact Operator.commutes_project_limit
  · exact Operator.commutes_assign_limit
      (tractable.assigned child x vars exprs us (.single isInput) passed childInputs run)

end Rules

end Plan

/-- Skipping and taking with a merged limit gives what the inner limit and then the outer one give,
    for every list that can be counted. Every firing of a rule for limits leaves the result of its
    slot as it was: once the schemas are computed again, the node in the slot has the same columns and
    may yield the same lists of tuples. -/
theorem limit_rules_keep_result :
    (∀ (outer inner : Limit) (ts : List Tuple), ts.length < countBound →
      (outer.merge inner).window ts = outer.window (inner.window ts)) ∧
    ∀ {r r' : RuleState} {s s' : Session} {slot : Slot} {id : NodeId} {I : Interpretation},
      s.plan.WellFormed → s.plan.SchemasCurrent → r.rule ∈ [.mergeLimits, .pushLimit] →
      s.plan.HoldsReachable slot → s.plan.nodeAt slot = .ok id →
      r.rule.pattern.isMatch s.plan id = true → r.before slot s = .ok (r', s', true) →
      ∃ plan new, s'.plan.refreshSchemas = .ok plan ∧ plan.nodeAt slot = .ok new ∧
        plan.columns new = s.plan.columns id ∧ ∀ frames, s.plan.Tractable I frames id →
          ∀ ts, plan.Yields I frames new ts ↔ s.plan.Yields I frames id ts := by
  refine ⟨fun outer inner ts counted => outer.window_merge inner counted, ?_⟩
  intro r r' s s' slot id I wellFormed current forLimits holds here isMatch fired
  unfold RuleState.before at fired
  simp only [List.mem_cons, List.not_mem_nil, or_false] at forLimits
  rcases forLimits with rule | rule <;> rw [rule] at fired isMatch <;>
    obtain ⟨found, done, fired⟩ := bind_ok_iff.mp fired <;>
    obtain rfl := RuleState.outcome_fired (pure_ok_iff.mp fired)
  · exact Plan.keeps_mergeLimits wellFormed current holds here done
  · exact Plan.keeps_pushLimit wellFormed current holds here isMatch done

/-- Two limits whose offsets together are beyond all counts. -/
def deepOffsetSession : Session where
  plan := {
    nodes := [
      some { Node.above .emptySource [] with schema := some [] },
      some { Node.above (.limit 10 (some (countBound - 2))) [0] with schema := some [] },
      some { Node.above (.limit 20 (some 4)) [1] with schema := some [] }],
    root := 2 }
  context := { catalog := ⟨[]⟩ }

theorem deepOffset_tractable : deepOffsetSession.plan.Tractable settledWorld .outer 2 := by
  have reached : ∀ {n}, deepOffsetSession.plan.Feeds 2 n → n ∈ [2, 1, 0] := fun feeds =>
    Plan.mem_reachable (feeds.reaches .refl)
  have bottom : ∀ {us}, deepOffsetSession.plan.Yields settledWorld .outer 0 us → us.length ≤ 1 := by
    intro us run
    have operator : deepOffsetSession.plan.operator 0 = .emptySource := rfl
    obtain ⟨_, _, _, emits⟩ := run.emits operator trivial
    exact (congrArg List.length emits).le
  have fewer : ∀ {n x count offset}, deepOffsetSession.plan.operator n = .limit count offset →
      deepOffsetSession.plan.inputs n = [x] →
      (∀ {us}, deepOffsetSession.plan.Yields settledWorld .outer x us → us.length ≤ 1) →
      ∀ {ts}, deepOffsetSession.plan.Yields settledWorld .outer n ts → ts.length ≤ 1 := by
    intro n x count offset operator inputs few ts run
    obtain ⟨us, below, rfl⟩ := (Plan.yields_single_iff operator trivial rfl inputs).mp run
    have kept : List.Sublist ((us.drop (offset.getD 0)).take count) us :=
      (List.take_sublist _ _).trans (List.drop_sublist _ _)
    exact kept.length_le.trans (few below)
  constructor
  · intro n ts feeds run
    have member := reached feeds
    have small : 1 < countBound := by decide
    fin_cases member
    · exact (fewer rfl rfl (fewer rfl rfl bottom) run).trans_lt small
    · exact (fewer rfl rfl bottom run).trans_lt small
    · exact (bottom run).trans_lt small
  · intro n input vars exprs ts feeds operator
    have member := reached feeds
    fin_cases member <;> cases operator

/-- Limits whose offsets add up to more than can be counted are merged into one that keeps what they
    kept. -/
theorem limit_rules_keep_result_deep : ∃ r s plan new,
    ({ rule := .mergeLimits } : RuleState).before .root deepOffsetSession = .ok (r, s, true) ∧
      s.plan.refreshSchemas = .ok plan ∧ plan.nodeAt .root = .ok new ∧
      plan.operator new = .limit 6 (some (countBound - 1)) ∧
      ∀ ts, plan.Yields settledWorld .outer new ts ↔
        deepOffsetSession.plan.Yields settledWorld .outer 2 ts := by
  have holds : deepOffsetSession.plan.HoldsReachable .root := fun holder impossible => by
    cases impossible
  have wellFormed : deepOffsetSession.plan.WellFormed :=
    .of_flat ⟨by decide, by decide⟩ (by decide) (by decide) (by decide)
  have current : deepOffsetSession.plan.SchemasCurrent := by
    intro id reached
    have member : id ∈ [2, 1, 0] := Plan.mem_reachable reached
    fin_cases member <;> exact ⟨_, rfl, rfl⟩
  obtain ⟨plan, new, refreshed, here, _, same⟩ := limit_rules_keep_result.2 wellFormed current
    (r := { rule := .mergeLimits }) (by decide) holds rfl rfl rfl
  refine ⟨_, _, plan, new, rfl, refreshed, here, ?_, same .outer deepOffset_tractable⟩
  cases refreshed
  cases here
  rfl

end QueryOptimizer
