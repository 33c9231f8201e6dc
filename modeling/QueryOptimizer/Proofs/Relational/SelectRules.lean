import Mathlib
import QueryOptimizer.Batch
import QueryOptimizer.Proofs.Plan.Garbage
import QueryOptimizer.Proofs.Relational.Filled
import QueryOptimizer.Proofs.Relational.Reworked
import QueryOptimizer.Proofs.Transform.Selects

/-! # Results of the select rules

The node in the slot of a select rule stands for what it stood for before: it has the same columns,
and may yield the same lists of tuples. This holds for every firing, also inside nested plans and on
nodes that are shared.
-/

namespace QueryOptimizer

/-- A transformation that applied is the plan that the rule leaves. -/
theorem RuleState.outcome_fired {r r' : RuleState} {s s' : Session} {found : Option Plan}
    (fired : r.outcome s found = (r', s', true)) : found = some s'.plan := by
  cases found with
  | none => cases fired
  | some plan => cases fired; rfl

namespace Plan

variable {plan mid plan' plan'' : Plan} {slot : Slot} {id child join n x y : NodeId}
  {condition joined : Expr} {layer base : List NodeId} {I : Interpretation} {frames : Frames}
  {ts : List Tuple}

/-- Whether the sides of every join have no variable in common, as it is where each variable is
    produced once. -/
def SidesApart (plan : Plan) : Prop :=
  ∀ n kind condition, plan.Reaches n → plan.operator n = .join kind condition →
    ∀ v ∈ plan.inputColumns n 0, v ∉ plan.inputColumns n 1

/-- A valid plan of which tuples can be computed. -/
structure Meaningful (plan : Plan) (I : Interpretation) : Prop where
  wellFormed : plan.WellFormed
  /-- The schemas are computed. -/
  current : plan.SchemasCurrent
  valid : plan.validate false = .ok ()
  /-- No variable reaches a join from both sides. -/
  apart : plan.SidesApart
  /-- Operators have a value for each variable that they produce. -/
  fits : ∀ n, plan.Reaches n → (plan.operator n).Fits I (plan.inputColumns n)
  lawful : I.Lawful

/-- Whether the slot has the same result after a change, once the schemas are computed again. -/
def KeepsResult (plan : Plan) (I : Interpretation) (slot : Slot) (id : NodeId) (plan' : Plan) : Prop :=
  ∃ plan'' new, plan'.refreshSchemas = .ok plan'' ∧ plan''.nodeAt slot = .ok new ∧
    plan.SameResult I id plan'' new

theorem Reworked.keepsResult {new : NodeId}
    (reworked : plan.Reworked slot id new layer base mid plan') (current : plan.SchemasCurrent)
    (same : ∀ plan'', plan.Refreshed slot new layer base mid plan'' →
      plan.SameResult I id plan'' new) : plan.KeepsResult I slot id plan' := by
  obtain ⟨plan'', done, refreshed⟩ := reworked.refresh current
  exact ⟨plan'', new, done, refreshed.here, same plan'' refreshed⟩

/-- An operator has the result that another one had, which moved below it, in all frames in which the
    two commute. -/
theorem Refreshed.swapped {moved op : Operator} (current : plan.SchemasCurrent)
    (reached : plan.Reaches id) (operator : plan.operator id = moved) (movedPlain : moved.IsPlain)
    (unary : moved.arity = 1) (thin : ∀ vs, moved.schema [vs] [] = vs)
    (childOperator : plan.operator child = op) (plain : op.IsPlain) (arity : op.arity = 1)
    (inputs : plan.inputs id = [child]) (childInputs : plan.inputs child = [x])
    (refreshed : plan.Refreshed slot child [id, child] [x] mid plan'')
    (standsId : mid.Stands id moved [x]) (standsChild : mid.Stands child op [id]) :
    plan''.columns child = plan.columns id ∧ ∀ frames,
      (∀ us, plan.Yields I frames x us → op.Commutes I moved us) →
        ∀ ts, plan''.Yields I frames child ts ↔ plan.Yields I frames id ts := by
  have reachedChild : plan.Reaches child := reached.input (by simp [inputs])
  have inId : id ∈ [id, child] := by simp
  have inChild : child ∈ [id, child] := by simp
  have isBase : x ∈ [x] := List.mem_cons_self
  obtain ⟨operatorId, inputsId⟩ := refreshed.stands inId standsId
  obtain ⟨operatorChild, inputsChild⟩ := refreshed.stands inChild standsChild
  constructor
  · rw [refreshed.current.columns_plain (refreshed.reached child inChild) operatorChild plain,
      inputsChild, current.columns_plain reached operator movedPlain, inputs, List.map_singleton,
      List.map_singleton, thin, current.columns_plain reachedChild childOperator plain, childInputs,
      refreshed.current.columns_plain (refreshed.reached id inId) operatorId movedPlain, inputsId,
      List.map_singleton, List.map_singleton, thin, refreshed.columns x isBase]
  · intro frames commutes ts
    rw [yields_single_iff operatorChild plain arity inputsChild,
      yields_single_iff operator movedPlain unary inputs]
    simp only [yields_single_iff operatorId movedPlain unary inputsId,
      yields_single_iff childOperator plain arity childInputs, refreshed.yields x isBase]
    constructor
    · rintro ⟨us, ⟨vs, run, turns⟩, turns'⟩
      obtain ⟨mid, first, second⟩ := (commutes vs run ts).mpr ⟨us, turns, turns'⟩
      exact ⟨mid, ⟨vs, run, first⟩, second⟩
    · rintro ⟨mid, ⟨vs, run, turns⟩, turns'⟩
      obtain ⟨us, first, second⟩ := (commutes vs run ts).mp ⟨mid, turns, turns'⟩
      exact ⟨us, ⟨vs, run, first⟩, second⟩

/-- An operator has the result of two that stood one above the other, if it makes at once of the tuples
    what they made one after the other. -/
theorem Refreshed.fused {upper lower op : Operator} (current : plan.SchemasCurrent)
    (refreshed : plan.Refreshed slot n [n] [x] mid plan'') (stands : mid.Stands n op [x])
    (reached : plan.Reaches id) (operator : plan.operator id = upper) (upperPlain : upper.IsPlain)
    (upperUnary : upper.arity = 1) (childOperator : plan.operator child = lower)
    (lowerPlain : lower.IsPlain) (lowerUnary : lower.arity = 1) (inputs : plan.inputs id = [child])
    (childInputs : plan.inputs child = [x]) (plain : op.IsPlain) (unary : op.arity = 1)
    (schema : ∀ vs, op.schema [vs] [] = upper.schema [lower.schema [vs] []] []) :
    plan''.columns n = plan.columns id ∧ ∀ frames ts,
      (∀ us, plan.Yields I frames x us →
        (op.Turns I us ts ↔ ∃ vs, lower.Turns I us vs ∧ upper.Turns I vs ts)) →
      (plan''.Yields I frames n ts ↔ plan.Yields I frames id ts) := by
  have reachedChild : plan.Reaches child := reached.input (by simp [inputs])
  have isNew : n ∈ [n] := List.mem_cons_self
  have isBase : x ∈ [x] := List.mem_cons_self
  obtain ⟨operatorNew, inputsNew⟩ := refreshed.stands isNew stands
  constructor
  · rw [refreshed.current.columns_plain (refreshed.reached n isNew) operatorNew plain, inputsNew,
      current.columns_plain reached operator upperPlain, inputs, List.map_singleton, List.map_singleton,
      current.columns_plain reachedChild childOperator lowerPlain, childInputs, List.map_singleton,
      refreshed.columns x isBase, schema]
  · intro frames ts atOnce
    rw [yields_single_iff operatorNew plain unary inputsNew,
      yields_single_iff operator upperPlain upperUnary inputs]
    simp only [yields_single_iff childOperator lowerPlain lowerUnary childInputs,
      refreshed.yields x isBase]
    constructor
    · rintro ⟨us, run, turns⟩
      obtain ⟨vs, first, second⟩ := (atOnce us run).mp turns
      exact ⟨vs, ⟨us, run, first⟩, second⟩
    · rintro ⟨vs, ⟨us, run, first⟩, second⟩
      exact ⟨us, run, (atOnce us run).mpr ⟨vs, first, second⟩⟩

namespace Meaningful

variable (meaningful : plan.Meaningful I)

include meaningful

theorem scope : plan.InScope := inScope_of_validate meaningful.valid

/-- The tuples of a node have values of the variables that are among its columns. -/
theorem fills (invoked : plan.Invocation I frames) (reached : plan.Reaches n)
    (run : plan.Yields I frames n ts) {vs : List Var} (columns : ∀ v ∈ vs, v ∈ plan.columns n) :
    ∀ t ∈ ts, t.Fills vs :=
  fun t member => (filled_of_fits meaningful.wellFormed meaningful.current meaningful.scope
    meaningful.fits frames n ts invoked reached run t member).mono columns

variable (holds : plan.HoldsReachable slot) (here : plan.nodeAt slot = .ok id)

include holds here

/-! ## Changing places with an operator -/

/-- A select that changes places with an operator that it commutes with. -/
theorem keeps_swap {op : Operator} (operator : plan.operator id = .select condition)
    (childOperator : plan.operator child = op) (plain : op.IsPlain) (arity : op.arity = 1)
    (isInput : (plan.inputs id)[0]? = some child)
    (commutes : ∀ x, plan.inputs child = [x] → ∀ frames us, plan.Invocation I frames →
      plan.Yields I frames x us → op.Commutes I (.select condition) us)
    (done : plan.swapWithInput slot id child = .ok plan') : plan.KeepsResult I slot id plan' := by
  have wellFormed := meaningful.wellFormed
  have reached : plan.Reaches id := holds.reaches here
  obtain ⟨inputs, reachedChild⟩ :=
    wellFormed.inputs_single reached (by rw [operator]; rfl) isInput
  obtain ⟨x, childInputs⟩ := List.length_eq_one_iff.mp
    ((wellFormed.arity child reachedChild).trans (by rw [childOperator, arity]))
  obtain ⟨mid, reworked, standsId, standsChild⟩ := swapWithInput_reworked wellFormed holds here
    (by rw [operator]; trivial) (by rw [childOperator]; exact plain) inputs childInputs done
  rw [operator] at standsId
  rw [childOperator] at standsChild
  refine reworked.keepsResult meaningful.current fun plan'' refreshed => ?_
  obtain ⟨columns, same⟩ := refreshed.swapped meaningful.current reached operator trivial rfl
    (fun _ => rfl) childOperator plain arity inputs childInputs standsId standsChild
  exact ⟨columns, fun frames invoked =>
    same frames fun us run => commutes x childInputs frames us invoked run⟩

/-! ## Moving to a side of a join -/

omit holds here in
/-- What a join gets from its sides. -/
theorem joinable {kind : JoinKind} (invoked : plan.Invocation I frames)
    (reached : plan.Reaches join) (operator : plan.operator join = .join kind joined)
    (inputs : plan.inputs join = [x, y]) {us vs : List Tuple} (first : plan.Yields I frames x us)
    (second : plan.Yields I frames y vs) :
    Operator.Joinable joined (sides (plan.columns x) (plan.columns y)) (sides us vs) := by
  refine ⟨?_, ?_, fun v occurs => ?_⟩
  · exact meaningful.fills invoked (reached.input (by simp [inputs])) first fun v member => member
  · exact meaningful.fills invoked (reached.input (by simp [inputs])) second fun v member => member
  · obtain ⟨c, isInput, inside⟩ := meaningful.scope.reads reached operator List.mem_cons_self v
      occurs
    rw [inputs] at isInput
    rcases List.mem_pair.mp isInput with rfl | rfl
    · exact .inl inside
    · exact .inr inside

/-- A select that is moved onto a side of a join that lets it pass there. -/
theorem keeps_side {kind : JoinKind} (operator : plan.operator id = .select condition)
    (isInput : (plan.inputs id)[0]? = some join)
    (joinOperator : plan.operator join = .join kind joined) (inputs : plan.inputs join = [x, y])
    {side : Nat} {input : NodeId} (found : [x, y][side]? = some input)
    (passes : ∀ us vs frames, plan.Invocation I frames → plan.Yields I frames x us →
      plan.Yields I frames y vs → (Operator.join kind joined).PassesSide I condition
        (sides (plan.columns x) (plan.columns y)) (sides us vs) side)
    (done : ((plan.add (.select condition) [input]).1.setInput join side
      (plan.add (.select condition) [input]).2).setSlot slot join = .ok plan') :
    plan.KeepsResult I slot id plan' := by
  have wellFormed := meaningful.wellFormed
  have current := meaningful.current
  have reached : plan.Reaches id := holds.reaches here
  obtain ⟨single, reachedJoin⟩ :=
    wellFormed.inputs_single reached (by rw [operator]; rfl) isInput
  have unary : (Operator.select condition).arity = 1 := rfl
  obtain ⟨mid, n, reworked, standsNew, standsJoin⟩ := selectSide_reworked wellFormed holds here
    (by rw [joinOperator]; trivial) unary trivial (List.mem_of_getElem? isInput) inputs found done
  refine reworked.keepsResult current fun plan'' refreshed => ?_
  have inNew : n ∈ [n, join] := by simp
  have inJoin : join ∈ [n, join] := by simp
  obtain ⟨operatorNew, inputsNew⟩ := refreshed.stands inNew standsNew
  obtain ⟨operatorJoin, inputsJoin⟩ := refreshed.stands inJoin standsJoin
  rw [joinOperator] at operatorJoin
  have isBase : input ∈ [x, y] := List.mem_of_getElem? found
  have columnsNew : plan''.columns n = plan.columns input :=
    (refreshed.current.columns_select (refreshed.reached n inNew) operatorNew inputsNew).trans
      (refreshed.columns input isBase)
  have yieldsNew : ∀ frames ts, plan''.Yields I frames n ts ↔
      ∃ us, plan.Yields I frames input us ∧ Selected I condition us ts := by
    intro frames ts
    rw [yields_single_iff operatorNew trivial rfl inputsNew]
    simp only [refreshed.yields input isBase]
    rfl
  have columnsOld : plan.columns id = plan.columns x ++ plan.columns y := by
    rw [current.columns_select reached operator single,
      current.columns_join reachedJoin joinOperator inputs]
  have yieldsOld : ∀ frames ts, plan.Yields I frames id ts ↔ ∃ us vs, plan.Yields I frames x us ∧
      plan.Yields I frames y vs ∧ ∃ mid, (Operator.join kind joined).Emits I
        (sides (plan.columns x) (plan.columns y)) (sides us vs) mid ∧
        Selected I condition mid ts := by
    intro frames ts
    rw [yields_single_iff operator trivial rfl single]
    simp only [yields_sides_iff joinOperator trivial inputs]
    exact ⟨fun ⟨mid, ⟨us, vs, first, second, emits⟩, selected⟩ =>
        ⟨us, vs, first, second, mid, emits, selected⟩,
      fun ⟨us, vs, first, second, mid, emits, selected⟩ =>
        ⟨mid, ⟨us, vs, first, second, emits⟩, selected⟩⟩
  match side with
  | 0 =>
    cases Option.some.inj found
    replace inputsJoin : plan''.inputs join = [n, y] := inputsJoin
    have isRight : y ∈ [x, y] := by simp
    constructor
    · rw [refreshed.current.columns_join (refreshed.reached join inJoin) operatorJoin inputsJoin,
        columnsNew, refreshed.columns y isRight, columnsOld]
    · intro frames invoked ts
      rw [yields_sides_iff operatorJoin trivial inputsJoin, yieldsOld, columnsNew,
        refreshed.columns y isRight]
      simp only [yieldsNew, refreshed.yields y isRight]
      constructor
      · rintro ⟨kept, vs, ⟨us, first, selected⟩, second, emits⟩
        refine ⟨us, vs, first, second, (passes us vs frames invoked first second ts).mpr ?_⟩
        exact ⟨kept, selected, by rwa [update_sides_zero]⟩
      · rintro ⟨us, vs, first, second, above⟩
        obtain ⟨kept, selected, emits⟩ := (passes us vs frames invoked first second ts).mp above
        rw [update_sides_zero] at emits
        exact ⟨kept, vs, ⟨us, first, selected⟩, second, emits⟩
  | 1 =>
    cases Option.some.inj found
    replace inputsJoin : plan''.inputs join = [x, n] := inputsJoin
    have isLeft : x ∈ [x, y] := by simp
    constructor
    · rw [refreshed.current.columns_join (refreshed.reached join inJoin) operatorJoin inputsJoin,
        columnsNew, refreshed.columns x isLeft, columnsOld]
    · intro frames invoked ts
      rw [yields_sides_iff operatorJoin trivial inputsJoin, yieldsOld, columnsNew,
        refreshed.columns x isLeft]
      simp only [yieldsNew, refreshed.yields x isLeft]
      constructor
      · rintro ⟨us, kept, first, ⟨vs, second, selected⟩, emits⟩
        refine ⟨us, vs, first, second, (passes us vs frames invoked first second ts).mpr ?_⟩
        exact ⟨kept, selected, by rwa [update_sides_one]⟩
      · rintro ⟨us, vs, first, second, above⟩
        obtain ⟨kept, selected, emits⟩ := (passes us vs frames invoked first second ts).mp above
        rw [update_sides_one] at emits
        exact ⟨us, kept, first, ⟨vs, second, selected⟩, emits⟩
  | _ + 2 => cases found

/-! ## Merging -/

/-- A select over an inner join that becomes part of the condition of the join. -/
theorem keeps_merge_join (operator : plan.operator id = .select condition)
    (isInput : (plan.inputs id)[0]? = some join)
    (joinOperator : plan.operator join = .join .inner joined)
    (done : (plan.setOperator join (.join .inner (.conjunction
      ((joined.conjuncts ++ condition.conjuncts).filter (!·.isTrue))))).setSlot slot join =
        .ok plan') : plan.KeepsResult I slot id plan' := by
  have wellFormed := meaningful.wellFormed
  have current := meaningful.current
  have reached : plan.Reaches id := holds.reaches here
  obtain ⟨single, reachedJoin⟩ :=
    wellFormed.inputs_single reached (by rw [operator]; rfl) isInput
  obtain ⟨x, y, inputs⟩ := wellFormed.inputs_pair reachedJoin (by rw [joinOperator]; rfl)
  have arity : (Operator.join .inner (.conjunction ((joined.conjuncts ++
      condition.conjuncts).filter (!·.isTrue)))).arity = (plan.operator join).arity := by
    rw [joinOperator]
    rfl
  obtain ⟨mid, reworked, stands⟩ := raise_reworked wellFormed holds here
    (by rw [joinOperator]; trivial) (by trivial) arity (List.mem_of_getElem? isInput) done
  refine reworked.keepsResult current fun plan'' refreshed => ?_
  have inJoin : join ∈ [join] := List.mem_cons_self
  obtain ⟨operatorJoin, inputsJoin⟩ := refreshed.stands inJoin stands
  rw [inputs] at inputsJoin
  have isLeft : x ∈ plan.inputs join := by simp [inputs]
  have isRight : y ∈ plan.inputs join := by simp [inputs]
  constructor
  · rw [refreshed.current.columns_join (refreshed.reached join inJoin) operatorJoin inputsJoin,
      refreshed.columns x isLeft, refreshed.columns y isRight,
      current.columns_select reached operator single,
      current.columns_join reachedJoin joinOperator inputs]
  · intro frames invoked ts
    rw [yields_sides_iff operatorJoin trivial inputsJoin,
      yields_single_iff operator trivial rfl single, refreshed.columns x isLeft,
      refreshed.columns y isRight]
    simp only [yields_sides_iff joinOperator trivial inputs, refreshed.yields x isLeft,
      refreshed.yields y isRight]
    -- The pairs have values of what the two conditions read.
    have merged : ∀ us vs, plan.Yields I frames x us → plan.Yields I frames y vs →
        (Selected I (.conjunction ((joined.conjuncts ++ condition.conjuncts).filter (!·.isTrue)))
            (pairs (plan.columns x) us vs) ts ↔
          ∃ mid, Selected I joined (pairs (plan.columns x) us vs) mid ∧
            Selected I condition mid ts) := by
      intro us vs first second
      have joinable := meaningful.joinable invoked reachedJoin joinOperator inputs first second
      have filled : ∀ {ws : List Var}, (∀ v ∈ ws, v ∈ plan.columns x ∨ v ∈ plan.columns y) →
          ∀ o ∈ pairs (plan.columns x) us vs, o.Fills ws := by
        intro ws either o member
        obtain ⟨t, left, u, right, rfl⟩ := mem_pairs.mp member
        exact joinable.fills left right either
      have readsCondition : ∀ v ∈ condition.occurrences, v ∈ plan.columns x ∨ v ∈ plan.columns y := by
        intro v occurs
        have inside := meaningful.scope.select reached operator single v occurs
        rw [current.columns_join reachedJoin joinOperator inputs] at inside
        exact List.mem_append.mp inside
      rw [selected_conjunction_filter meaningful.lawful, selected_conjunction meaningful.lawful
        (filled joinable.reads) (filled readsCondition)]
      · simp only [selected_iff]
        exact sifted_comm
          (fun o member => Expr.Verdict.exists meaningful.lawful (filled readsCondition o member))
          (fun o member => Expr.Verdict.exists meaningful.lawful (filled joinable.reads o member))
      · refine filled fun v occurs => ?_
        rw [Expr.occurrencesList_append, Expr.occurrencesList_conjuncts,
          Expr.occurrencesList_conjuncts] at occurs
        exact (List.mem_append.mp occurs).elim (joinable.reads v) (readsCondition v)
    constructor
    · rintro ⟨us, vs, first, second, emits⟩
      obtain ⟨mid, join, select⟩ := (merged us vs first second).mp emits
      exact ⟨mid, ⟨us, vs, first, second, join⟩, select⟩
    · rintro ⟨mid, ⟨us, vs, first, second, join⟩, select⟩
      exact ⟨us, vs, first, second, (merged us vs first second).mpr ⟨mid, join, select⟩⟩

/-- A select over a select that checks the conditions of both. -/
theorem keeps_merge_selects {inner : Expr} (operator : plan.operator id = .select condition)
    (isInput : (plan.inputs id)[0]? = some child) (childOperator : plan.operator child = .select inner)
    (isBelow : (plan.inputs child)[0]? = some x) :
    plan.KeepsResult I slot id ((plan.setOperator id (.select (.conjunction
      (condition.conjuncts ++ inner.conjuncts)))).setInput id 0 x) := by
  have wellFormed := meaningful.wellFormed
  have current := meaningful.current
  have reached : plan.Reaches id := holds.reaches here
  obtain ⟨inputs, reachedChild⟩ :=
    wellFormed.inputs_single reached (by rw [operator]; rfl) isInput
  obtain ⟨childInputs, reachedBelow⟩ :=
    wellFormed.inputs_single reachedChild (by rw [childOperator]; rfl) isBelow
  have unary : (Operator.select (.conjunction (condition.conjuncts ++ inner.conjuncts))).arity = 1 :=
    rfl
  obtain ⟨reworked, stands⟩ := absorb_reworked wellFormed holds here (by rw [operator]; trivial)
    (by trivial) unary inputs (List.mem_of_getElem? isBelow)
  refine reworked.keepsResult current fun plan'' refreshed => ?_
  obtain ⟨columns, same⟩ := refreshed.fused current stands reached operator trivial rfl childOperator
    trivial rfl inputs childInputs trivial unary fun _ => rfl
  refine ⟨columns, fun frames invoked ts => same frames ts fun us run => ?_⟩
  refine selected_conjunction meaningful.lawful (meaningful.fills invoked reachedBelow run ?_)
    (meaningful.fills invoked reachedBelow run ?_)
  · exact current.columns_select reachedChild childOperator childInputs ▸
      meaningful.scope.select reached operator inputs
  · exact meaningful.scope.select reachedChild childOperator childInputs

end Meaningful

/-! ## Splitting -/

section Chain

variable {conditions : List Expr} {chain : List NodeId} {top : NodeId}
  (same : ∀ n ∈ chain, plan'.operator n = plan.operator n ∧ plan'.inputs n = plan.inputs n)

include same

/-- The top of a chain has the columns of its input. -/
theorem SelectChain.columns (selects : plan.SelectChain x conditions chain top)
    (current : plan'.SchemasCurrent) (reached : ∀ n ∈ chain, plan'.Reaches n) :
    plan'.columns top = plan'.columns x := by
  induction selects with
  | nil => rfl
  | @cons condition conditions chain below top _ _ stands ih =>
    have isTop : top ∈ chain ++ [top] := List.mem_append_right _ List.mem_cons_self
    have lower := ih (fun n member => same n (List.mem_append_left _ member))
      (fun n member => reached n (List.mem_append_left _ member))
    rw [current.columns_select (reached top isTop) ((same top isTop).1.trans stands.operator)
      ((same top isTop).2.trans stands.inputs), lower]

/-- A chain yields the tuples of which all its conditions are true. -/
theorem SelectChain.yields_iff (selects : plan.SelectChain x conditions chain top)
    (lawful : I.Lawful) (fills : ∀ us, plan'.Yields I frames x us →
      ∀ t ∈ us, t.Fills (Expr.occurrencesList conditions)) :
    plan'.Yields I frames top ts ↔
      ∃ us, plan'.Yields I frames x us ∧ Sifted (Expr.VerdictOfAll I conditions) us ts := by
  induction selects generalizing ts with
  | nil =>
    have all : ∀ us, Sifted (Expr.VerdictOfAll I []) us ts ↔ ts = us := by
      intro us
      rw [sifted_iff_filter (p := fun _ => true) fun t _ b => by simp [Expr.VerdictOfAll],
        List.filter_true]
    simp only [all]
    constructor
    · exact fun run => ⟨ts, run, rfl⟩
    · rintro ⟨us, run, same⟩
      exact same ▸ run
  | @cons condition conditions chain below top _ _ stands ih =>
    have isTop : top ∈ chain ++ [top] := List.mem_append_right _ List.mem_cons_self
    have fillsRest : ∀ us, plan'.Yields I frames x us →
        ∀ t ∈ us, t.Fills (Expr.occurrencesList conditions) := fun us run t member =>
      (fills us run t member).mono fun v occurs => List.mem_append_right _ occurs
    have lower := fun {ts} => @ih ts (fun n member => same n (List.mem_append_left _ member))
      fillsRest
    rw [yields_single_iff ((same top isTop).1.trans stands.operator) trivial rfl
      ((same top isTop).2.trans stands.inputs)]
    simp only [lower]
    have composed : ∀ us, plan'.Yields I frames x us →
        (Sifted (Expr.VerdictOfAll I (condition :: conditions)) us ts ↔
          ∃ mid, Sifted (Expr.VerdictOfAll I conditions) us mid ∧ Selected I condition mid ts) := by
      intro us run
      simp only [selected_iff]
      rw [sifted_sifted]
      refine sifted_congr fun t member b => ?_
      rw [← List.singleton_append, Expr.verdictOfAll_append lawful (fillsRest us run t member)]
      unfold andThen
      rw [Expr.verdictOfAll_single]
    constructor
    · rintro ⟨mid, ⟨us, run, sifted⟩, selected⟩
      exact ⟨us, run, (composed us run).mpr ⟨mid, sifted, selected⟩⟩
    · rintro ⟨us, run, sifted⟩
      obtain ⟨mid, sifted, selected⟩ := (composed us run).mp sifted
      exact ⟨mid, ⟨us, run, sifted⟩, selected⟩

end Chain

/-- A select that is split into one for each conjunct. -/
theorem Meaningful.keeps_split (meaningful : plan.Meaningful I) (holds : plan.HoldsReachable slot)
    (here : plan.nodeAt slot = .ok id) {top next : Expr} {rest : List Expr}
    (operator : plan.operator id = .select condition)
    (conjuncts : condition.conjuncts = top :: next :: rest)
    (done : plan.splitSelect slot = .ok (some plan')) : plan.KeepsResult I slot id plan' := by
  have wellFormed := meaningful.wellFormed
  have current := meaningful.current
  have reached : plan.Reaches id := holds.reaches here
  obtain ⟨x, inputs⟩ := List.length_eq_one_iff.mp
    ((wellFormed.arity id reached).trans (by rw [operator]; rfl))
  obtain ⟨chain, reworked, selects⟩ := splitSelect_reworked wellFormed holds here operator conjuncts
    inputs done
  refine reworked.keepsResult current fun plan'' refreshed => ?_
  have isBase : x ∈ [x] := List.mem_cons_self
  have same : ∀ n ∈ chain, plan''.operator n = plan'.operator n ∧ plan''.inputs n = plan'.inputs n :=
    fun n member => ⟨refreshed.operator n member, refreshed.inputs n member⟩
  constructor
  · rw [selects.columns same refreshed.current refreshed.reached, refreshed.columns x isBase,
      current.columns_select reached operator inputs]
  · intro frames invoked ts
    have fills : ∀ us, plan.Yields I frames x us → ∀ t ∈ us, t.Fills condition.occurrences :=
      fun us run => meaningful.fills invoked (reached.input (by simp [inputs])) run
        (meaningful.scope.select reached operator inputs)
    rw [selects.yields_iff same meaningful.lawful, yields_single_iff operator trivial rfl inputs]
    · simp only [refreshed.yields x isBase]
      refine exists_congr fun us => and_congr_right fun run => ?_
      refine Iff.trans ?_ selected_iff.symm
      exact sifted_congr fun t member b =>
        (Expr.verdict_iff_conjuncts meaningful.lawful (fills us run t member)).symm
    · intro us run
      rw [refreshed.yields x isBase] at run
      rw [Expr.occurrencesList_conjuncts]
      exact fills us run

/-! ## The rules -/

namespace Meaningful

variable (meaningful : plan.Meaningful I) (holds : plan.HoldsReachable slot)
  (here : plan.nodeAt slot = .ok id)

include meaningful holds here

theorem keeps_pushSelect (done : plan.pushSelect slot = .ok (some plan')) :
    plan.KeepsResult I slot id plan' := by
  obtain ⟨id', condition, child, here', movable, cases⟩ := pushSelect_some done
  obtain rfl : id = id' := Except.ok.inj (here.symm.trans here')
  obtain ⟨operator, deterministic, isInput, -⟩ := movableSelect_some movable
  have lawful := meaningful.lawful
  have reached : plan.Reaches id := holds.reaches here
  obtain ⟨inputs, reachedChild⟩ :=
    meaningful.wellFormed.inputs_single reached (by rw [operator]; rfl) isInput
  have reads : ∀ v ∈ condition.occurrences, v ∈ plan.columns child :=
    meaningful.scope.select reached operator inputs
  have below : ∀ {x : NodeId}, plan.inputs child = [x] → plan.Reaches x := fun childInputs =>
    reachedChild.input (by simp [childInputs])
  rcases cases with ⟨child_cases, swapped⟩ | ⟨⟨joined, joinOperator⟩, moved⟩ |
    ⟨⟨joined, joinOperator⟩, moved⟩
  · rcases child_cases with ⟨vars, childOperator⟩ | ⟨keys, childOperator⟩ | childOperator |
      ⟨vars, exprs, childOperator, apart⟩
    · refine meaningful.keeps_swap holds here operator childOperator trivial rfl isInput
        (fun x childInputs frames us invoked run => ?_) swapped
      rw [meaningful.current.columns_plain reachedChild childOperator trivial] at reads
      exact Operator.commutes_project reads
    · refine meaningful.keeps_swap holds here operator childOperator trivial rfl isInput
        (fun x childInputs frames us invoked run => ?_) swapped
      have columns : plan.columns child = plan.columns x := by
        rw [meaningful.current.columns_plain reachedChild childOperator trivial, childInputs]
        rfl
      exact Operator.commutes_order lawful deterministic
        (meaningful.fills invoked (below childInputs) run (columns ▸ reads))
        (meaningful.fills invoked (below childInputs) run (meaningful.scope.reads_single
          reachedChild childOperator childInputs))
    · exact meaningful.keeps_swap holds here operator childOperator trivial rfl isInput
        (fun _ _ _ _ _ _ => Operator.commutes_exchange) swapped
    · refine meaningful.keeps_swap holds here operator childOperator trivial rfl isInput
        (fun x childInputs frames us invoked run => ?_) swapped
      have readsBelow : ∀ v ∈ condition.occurrences, v ∈ plan.columns x := by
        intro v occurs
        have inside := reads v occurs
        rw [meaningful.current.columns_plain reachedChild childOperator trivial, childInputs] at inside
        rcases mem_appendNew.mp inside with old | new
        · simpa using old
        · exact absurd new (apart v (mem_distinct.mpr occurs))
      exact Operator.commutes_assign lawful deterministic
        (meaningful.fills invoked (below childInputs) run readsBelow)
        (fun v occurs => apart v (mem_distinct.mpr occurs))
        (meaningful.fills invoked (below childInputs) run (meaningful.scope.reads_single
          reachedChild childOperator childInputs))
  · obtain ⟨x, y, joinInputs⟩ :=
      meaningful.wellFormed.inputs_pair reachedChild (by rw [joinOperator]; rfl)
    obtain ⟨side, member, input, schema, found, computed, inside, moved⟩ := selectJoinInput_some moved
    rw [joinInputs] at found
    refine meaningful.keeps_side holds here operator isInput joinOperator joinInputs found
      (fun us vs frames invoked first second => ?_) moved
    have joinable := meaningful.joinable invoked reachedChild joinOperator joinInputs first second
    have readsSide : ∀ v ∈ condition.occurrences, v ∈ plan.columns input := fun v occurs =>
      columns_of_schema computed ▸ inside v (mem_distinct.mpr occurs)
    rcases List.mem_pair.mp member with rfl | rfl
    · cases Option.some.inj found
      exact Operator.passesSide_inner_left lawful deterministic joinable readsSide
    · cases Option.some.inj found
      refine Operator.passesSide_inner_right lawful deterministic joinable ?_ readsSide
      have apart := meaningful.apart child .inner joined reachedChild joinOperator
      rw [inputColumns_sides joinInputs] at apart
      exact apart
  · obtain ⟨x, y, joinInputs⟩ :=
      meaningful.wellFormed.inputs_pair reachedChild (by rw [joinOperator]; rfl)
    obtain ⟨side, member, input, schema, found, computed, inside, moved⟩ := selectJoinInput_some moved
    rw [joinInputs] at found
    refine meaningful.keeps_side holds here operator isInput joinOperator joinInputs found
      (fun us vs frames invoked first second => ?_) moved
    cases List.mem_singleton.mp member
    cases Option.some.inj found
    exact Operator.passesSide_outer_left lawful deterministic
      (meaningful.joinable invoked reachedChild joinOperator joinInputs first second)
      fun v occurs => columns_of_schema computed ▸ inside v (mem_distinct.mpr occurs)

theorem keeps_mergeSelectIntoJoin (done : plan.mergeSelectIntoJoin slot = .ok (some plan')) :
    plan.KeepsResult I slot id plan' := by
  obtain ⟨id', condition, join, joined, here', movable, joinOperator, placed⟩ :=
    mergeSelectIntoJoin_some done
  obtain rfl : id = id' := Except.ok.inj (here.symm.trans here')
  obtain ⟨operator, -, isInput, -⟩ := movableSelect_some movable
  exact meaningful.keeps_merge_join holds here operator isInput joinOperator placed

theorem keeps_mergeSelects (done : plan.mergeSelects slot = .ok (some plan')) :
    plan.KeepsResult I slot id plan' := by
  obtain ⟨outer, inner, input, condition, innerCondition, here', isInput, isBelow, operator,
    childOperator, rfl⟩ := mergeSelects_some done
  obtain rfl : id = outer := Except.ok.inj (here.symm.trans here')
  exact meaningful.keeps_merge_selects holds here operator isInput childOperator isBelow

theorem keeps_splitSelect (done : plan.splitSelect slot = .ok (some plan')) :
    plan.KeepsResult I slot id plan' := by
  obtain ⟨id', condition, top, next, rest, here', operator, conjuncts⟩ := splitSelect_some done
  obtain rfl : id = id' := Except.ok.inj (here.symm.trans here')
  exact meaningful.keeps_split holds here operator conjuncts done

end Meaningful

end Plan

/-- The result of a call where only conjunctions and equations can be true. -/
def settledResult : Function → List Scalar → Scalar
  | .and, xs => .boolean (xs.all fun x => decide (x = .boolean true))
  | .eq, [x, y] => .boolean (decide (x = y))
  | _, _ => .boolean false

theorem settledResult_eq {x y : Scalar} (isTrue : .boolean true = settledResult .eq [x, y]) :
    x = y := by
  simpa [settledResult] using isTrue

theorem settledResult_and {xs : List Scalar} :
    .boolean true = settledResult .and xs ↔ ∀ x ∈ xs, x = .boolean true := by
  simp [settledResult]

theorem settledFolds_unique {x y : Scalar} (impossible : False) : x = y := impossible.elim

open Classical in
/-- A world in which every data source has two rows of one value. -/
noncomputable def settledWorld : Interpretation where
  returns f xs x := x = settledResult f xs
  folds _ _ _ := False
  items _ := []
  ascends x y := decide (x = y ∨ WellOrderingRel x y)
  scripts _ _ _ := False
  rows _ := [[.boolean true], [.boolean false]]
  returns_unique _ first second := first.trans second.symm
  folds_unique _ impossible _ := settledFolds_unique impossible
  eq_identical isTrue := settledResult_eq isTrue
  and_all isTrue := settledResult_and.mp isTrue

theorem settledWorld_lawful : settledWorld.Lawful where
  total f xs := ⟨_, rfl⟩
  and_true xs all := settledResult_and.mpr all
  ascends_total x y := by
    simp only [settledWorld, decide_eq_true_eq]
    rcases trichotomous_of WellOrderingRel x y with less | same | more
    · exact .inl (.inr less)
    · exact .inl (.inl same)
    · exact .inr (.inr more)
  ascends_trans x y z first second := by
    simp only [settledWorld, decide_eq_true_eq] at first second ⊢
    rcases first with rfl | first
    · exact second
    · rcases second with rfl | second
      · exact .inr first
      · exact .inr (IsTrans.trans _ _ _ first second)
  ascends_antisymm x y first second := by
    simp only [settledWorld, decide_eq_true_eq] at first second
    rcases first with same | first
    · exact same
    · rcases second with same | second
      · exact same.symm
      · exact absurd second (asymm first)

/-- A select over a left outer join, which reads the left side. -/
def outerJoinSession : Session where
  plan := {
    nodes := [
      some { Node.above .emptySource [] with schema := some [] },
      some { Node.above (.scan "S" [1]) [0] with schema := some [1] },
      some { Node.above (.scan "T" [2]) [0] with schema := some [2] },
      some { Node.above (.join .leftOuter (.call .eq [.var 1, .var 2] [])) [1, 2] with
        schema := some [1, 2] },
      some { Node.above (.select (.var 1)) [3] with schema := some [1, 2] }],
    root := 4 }
  context := { catalog := ⟨[]⟩ }

theorem outerJoin_reaches {id : NodeId} (reached : outerJoinSession.plan.Reaches id) :
    id ∈ [4, 3, 1, 0, 2] :=
  Plan.mem_reachable reached

theorem outerJoin_meaningful : outerJoinSession.plan.Meaningful settledWorld where
  wellFormed := .of_flat ⟨by decide, by decide⟩ (by decide) (by decide) (by decide)
  current id reached := by
    have member := outerJoin_reaches reached
    fin_cases member <;> exact ⟨_, rfl, rfl⟩
  valid := rfl
  apart id kind condition reached operator := by
    have member := outerJoin_reaches reached
    fin_cases member <;> cases operator
    decide
  fits id reached := by
    have member := outerJoin_reaches reached
    have width : ∀ row ∈ settledWorld.rows "S", 1 ≤ row.length := by
      intro row stored
      have stored : row ∈ [[.boolean true], [.boolean false]] := stored
      fin_cases stored <;> exact Nat.le_refl 1
    fin_cases member
    · trivial
    · trivial
    · exact width
    · trivial
    · exact width
  lawful := settledWorld_lawful

end QueryOptimizer
