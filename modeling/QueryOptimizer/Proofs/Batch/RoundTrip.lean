import Mathlib
import QueryOptimizer.Proofs.Batch.Fixpoint
import QueryOptimizer.Proofs.Batch.Visits
import QueryOptimizer.Proofs.Plan.Garbage
import QueryOptimizer.Proofs.Transform.Changes

/-! # Selects that are split and merged again

A select that is split becomes a stack of selects. A merge of any two selects of the plan, in a stack or
not, keeps the conjuncts of all stacks and their order. Merging brings the reachable nodes nearer to the
leaves, so it comes to an end, and then every stack is one select.
-/

namespace QueryOptimizer

namespace Expr

theorem conjunctsList_of_atoms {es : List Expr} (atoms : ∀ e ∈ es, e.conjuncts = [e]) :
    conjunctsList es = es := by
  induction es with
  | nil => rfl
  | cons e es ih =>
    rw [conjunctsList, atoms e List.mem_cons_self,
      ih fun e member => atoms e (List.mem_cons_of_mem _ member)]
    rfl

theorem conjuncts_conjunction {es : List Expr} (some : es ≠ []) (atoms : ∀ e ∈ es, e.conjuncts = [e]) :
    (conjunction es).conjuncts = es := by
  rcases es with _ | ⟨e, _ | ⟨f, es⟩⟩
  · exact absurd rfl some
  · exact atoms e List.mem_cons_self
  · exact conjunctsList_of_atoms atoms

end Expr

namespace Plan

variable {plan plan' plan'' : Plan} {slot : Slot} {id n outer inner input base : NodeId}
  {upper lower condition : Expr} {es : List Expr} {rank : NodeId → Nat} {bound : Nat}

/-! ## Merging two selects -/

/-- Whether a node is a select over a select. -/
def SelectsTwice (plan : Plan) (n : NodeId) : Prop :=
  ∃ upper inner lower, plan.operator n = .select upper ∧ plan.inputs n = [inner] ∧
    plan.operator inner = .select lower

theorem isMatch_mergeSelects :
    Rule.mergeSelects.pattern.isMatch plan n = true ↔ plan.SelectsTwice n := by
  have select : ∀ op : Operator, op.kind = .select → ∃ condition, op = .select condition := by
    intro op kind
    cases op <;> first | exact ⟨_, rfl⟩ | cases kind
  constructor
  · intro isMatch
    obtain ⟨kind, inner, inputs, isMatch⟩ := isMatch_single isMatch
    obtain ⟨upper, isOuter⟩ := select _ (of_decide_eq_true kind)
    obtain ⟨lower, isInner⟩ := select _ (of_decide_eq_true isMatch)
    exact ⟨upper, inner, lower, isOuter, inputs, isInner⟩
  · rintro ⟨upper, inner, lower, isOuter, inputs, isInner⟩
    simp [Rule.pattern, Pattern.kind, Pattern.isMatch, Pattern.areMatches, isOuter, inputs, isInner,
      Operator.kind]

/-- What merging two selects leaves: only the upper one is another. -/
structure Merges (plan : Plan) (outer inner input : NodeId) (upper lower : Expr) (plan' : Plan) :
    Prop where
  wellFormed : plan'.WellFormed
  root : plan'.root = plan.root
  reached : plan.Reaches outer
  reached' : plan'.Reaches outer
  isOuter : plan.operator outer = .select upper
  isInner : plan.operator inner = .select lower
  inputs : plan.inputs outer = [inner]
  below : plan.inputs inner = [input]
  different : inner ≠ outer
  merged : plan'.operator outer = .select (.conjunction (upper.conjuncts ++ lower.conjuncts))
  inputs' : plan'.inputs outer = [input]
  others : ∀ n, n ≠ outer → plan'.operator n = plan.operator n ∧ plan'.inputs n = plan.inputs n

/-- A select over a select can be merged with it, wherever it is. -/
theorem WellFormed.merges (wellFormed : plan.WellFormed) (holds : plan.HoldsReachable slot)
    (here : plan.nodeAt slot = .ok id) (twice : plan.SelectsTwice id) :
    ∃ plan' plan'' inner input upper lower, plan.mergeSelects slot = .ok (some plan') ∧
      plan'.refreshSchemas = .ok plan'' ∧ plan.Merges id inner input upper lower plan'' ∧
      Retains slot.holder? plan plan'' ∧ plan''.nodeAt slot = .ok id := by
  obtain ⟨upper, inner, lower, isOuter, inputs, isInner⟩ := twice
  have reached := holds.reaches here
  have isInput : inner ∈ plan.inputs id := by simp [inputs]
  obtain ⟨input, below⟩ : ∃ input, plan.inputs inner = [input] := by
    refine List.length_eq_one_iff.mp ?_
    rw [wellFormed.arity inner (reached.input isInput), isInner]
    rfl
  let merged : Operator := .select (.conjunction (upper.conjuncts ++ lower.conjuncts))
  obtain ⟨reworked, stands⟩ := absorb_reworked wellFormed holds here
    (by rw [isOuter]; trivial) (show merged.IsPlain from trivial) rfl inputs (x := input) (by simp [below])
  obtain ⟨plan'', refreshed, only, _⟩ := reworked.wellFormed.refreshSchemas
  refine ⟨_, plan'', inner, input, upper, lower, ?_, refreshed, {
    wellFormed := only.redrawn.wellFormed reworked.wellFormed
    root := only.root.trans reworked.root
    reached, isOuter, isInner, inputs, below
    reached' := only.reaches_iff.mpr reworked.reaches_new
    different := wellFormed.ne_of_input reached isInput
    merged := (only.operator id).trans stands.operator
    inputs' := (only.inputs id).trans stands.inputs
    others := fun n other => ?_ }, reworked.retains.trans (only.redrawn.retains _),
    only.regrouped.nodeAt.mpr reworked.rewired.here⟩
  · simp only [mergeSelects, here, input_of_single inputs, isOuter, isInner, input_of_single below, bind,
      Except.bind, pure, Except.pure, merged]
  · have same := reworked.node (n := n) (by simpa using other)
    rw [only.operator, only.inputs]
    unfold Plan.operator Plan.inputs
    rw [same]
    exact ⟨rfl, rfl⟩

namespace Merges

variable (merges : plan.Merges outer inner input upper lower plan')

include merges

theorem reaches_inner : plan.Reaches inner := merges.reached.input (by simp [merges.inputs])

theorem children_of_ne (other : n ≠ outer) : plan'.children n = plan.children n := by
  obtain ⟨operator, inputs⟩ := merges.others n other
  unfold children nestedRoots
  rw [operator, inputs]

theorem children_outer : plan.children outer = [inner] ∧ plan'.children outer = [input] := by
  unfold children nestedRoots
  rw [merges.isOuter, merges.inputs, merges.merged, merges.inputs']
  exact ⟨rfl, rfl⟩

theorem children_inner : plan.children inner = [input] := by
  unfold children nestedRoots
  rw [merges.isInner, merges.below]
  rfl

theorem reaches (reached : plan'.Reaches n) : plan.Reaches n := by
  refine Below.of_closed (merges.root ▸ .refl) (fun m reached c child => ?_) reached
  by_cases isOuter : m = outer
  · rw [isOuter, merges.children_outer.2] at child
    cases List.mem_singleton.mp child
    exact merges.reaches_inner.input (by simp [merges.below])
  · exact reached.child (merges.children_of_ne isOuter ▸ child)

/-- Only the lower select may be lost. -/
theorem reaches' (reached : plan.Reaches n) (other : n ≠ inner) : plan'.Reaches n := by
  refine (Below.of_closed (P := fun n => plan'.Reaches n ∨ n = inner) (.inl (merges.root ▸ .refl))
    (fun m known c child => ?_) reached).resolve_right other
  rcases known with reached | rfl
  · by_cases isOuter : m = outer
    · rw [isOuter, merges.children_outer.1] at child
      exact .inr (List.mem_singleton.mp child)
    · exact .inl (reached.child (merges.children_of_ne isOuter ▸ child))
  · rw [merges.children_inner, ← merges.children_outer.2] at child
    exact .inl (merges.reached'.child child)

theorem lower_rank (descends : plan.Descends rank) : rank input < rank inner ∧ rank inner < rank outer := by
  exact ⟨descends inner merges.reaches_inner input (by simp [merges.children_inner]),
    descends outer merges.reached inner (by simp [merges.children_outer.1])⟩

theorem descends (descends : plan.Descends rank) : plan'.Descends rank := by
  intro n reached c child
  by_cases isOuter : n = outer
  · rw [isOuter, merges.children_outer.2] at child
    cases List.mem_singleton.mp child
    obtain ⟨below, above⟩ := merges.lower_rank descends
    exact isOuter ▸ below.trans above
  · exact descends n (merges.reaches reached) c (merges.children_of_ne isOuter ▸ child)

theorem nodeAt (other : slot.holder? ≠ some outer) (here : plan.nodeAt slot = .ok n) :
    plan'.nodeAt slot = .ok n := by
  refine (nodeAt_congr merges.root fun holder held => ?_).mpr here
  obtain ⟨operator, inputs⟩ := merges.others holder fun isOuter => other (isOuter ▸ held)
  exact ⟨inputs, congrArg Operator.nested operator⟩

theorem slots (here : plan.nodeAt slot = .ok n) : ∃ c, plan'.nodeAt slot = .ok c := by
  by_cases held : slot.holder? = some outer
  · have child := mem_children_of_nodeAt here held
    cases slot with
    | root => cases held
    | input parent index =>
      cases held
      rw [Plan.nodeAt, input_ok_iff, merges.inputs] at here
      obtain ⟨first, _⟩ := List.getElem?_eq_some_iff.mp here
      refine ⟨input, ?_⟩
      rw [Plan.nodeAt, input_ok_iff, merges.inputs', Nat.lt_one_iff.mp first]
      rfl
    | nestedRoot owner p index =>
      cases held
      rw [nodeAt_nestedRoot_ok_iff, merges.isOuter] at here
      cases here
  · exact ⟨n, merges.nodeAt held here⟩

end Merges

/-! ## Stacks of selects -/

/-- Selects over a node, with all their conjuncts from above. -/
inductive Stack (plan : Plan) (base : NodeId) : NodeId → List Expr → Prop where
  | nil : Stack plan base base []
  | cons {n below : NodeId} {es rest : List Expr} (isSelect : plan.operator n = .select (.conjunction es))
      (some : es ≠ []) (atoms : ∀ e ∈ es, e.conjuncts = [e]) (inputs : plan.inputs n = [below])
      (lower : Stack plan base below rest) : Stack plan base n (es ++ rest)

theorem SelectChain.stack {chain : List NodeId} (chained : plan.SelectChain base es chain n)
    (atoms : ∀ e ∈ es, e.conjuncts = [e]) : plan.Stack base n es := by
  induction chained with
  | nil => exact .nil
  | cons _ _ stands ih =>
    have lower := ih fun e member => atoms e (List.mem_cons_of_mem _ member)
    show plan.Stack base _ ([_] ++ _)
    refine .cons stands.operator (List.cons_ne_nil _ _) (fun e member => ?_) stands.inputs lower
    exact atoms e (List.mem_singleton.mp member ▸ List.mem_cons_self)

/-- No merge changes the conjuncts of a stack. -/
theorem Merges.stack (merges : plan.Merges outer inner input upper lower plan')
    (bottom : (plan.operator base).kind ≠ .select) (stack : plan.Stack base n es) :
    plan'.Stack base n es := by
  induction stack with
  | nil => exact .nil
  | @cons n below es rest isSelect some atoms inputs _ ih =>
    by_cases isOuter : n = outer
    · subst isOuter
      cases merges.isOuter.symm.trans isSelect
      cases merges.inputs.symm.trans inputs
      -- What is below is a select too, so it is part of the stack and not its base.
      cases ih with
      | nil => exact absurd (congrArg Operator.kind merges.isInner) bottom
      | @cons _ below' fs rest isSelect' some' atoms' inputs' lower' =>
        obtain ⟨operator, same⟩ := merges.others inner merges.different
        cases merges.isInner.symm.trans (operator.symm.trans isSelect')
        cases merges.below.symm.trans (same.symm.trans inputs')
        have merged := merges.merged
        rw [Expr.conjuncts_conjunction some atoms, Expr.conjuncts_conjunction some' atoms'] at merged
        rw [← List.append_assoc]
        refine .cons merged (List.append_ne_nil_of_left_ne_nil some fs) (fun e member => ?_)
          merges.inputs' lower'
        exact (List.mem_append.mp member).elim (atoms e) (atoms' e)
    · obtain ⟨operator, same⟩ := merges.others n isOuter
      exact .cons (operator.trans isSelect) some atoms (same.trans inputs) ih

/-- What merging selects keeps: what holds the slot is no select, in the slot is a stack of selects, and
    the stack stands on what is no select. -/
structure HoldsStack (plan : Plan) (slot : Slot) (id base : NodeId) (es : List Expr) : Prop where
  wellFormed : plan.WellFormed
  holds : plan.HoldsReachable slot
  here : plan.nodeAt slot = .ok id
  top : ∀ holder, slot.holder? = some holder → (plan.operator holder).kind ≠ .select
  bottom : (plan.operator base).kind ≠ .select
  stack : plan.Stack base id es

theorem HoldsStack.merge (stacked : plan.HoldsStack slot id base es)
    (merges : plan.Merges outer inner input upper lower plan') : plan'.HoldsStack slot id base es := by
  have other : ∀ n, (plan.operator n).kind ≠ .select → n ≠ outer := by
    rintro n isOther rfl
    exact isOther (congrArg Operator.kind merges.isOuter)
  refine ⟨merges.wellFormed, fun holder held => ?_, merges.nodeAt (fun held => ?_) stacked.here,
    fun holder held => ?_, ?_, merges.stack stacked.bottom stacked.stack⟩
  · refine merges.reaches' (stacked.holds holder held) ?_
    rintro rfl
    exact stacked.top _ held (congrArg Operator.kind merges.isInner)
  · exact other outer (stacked.top outer held) rfl
  · rw [(merges.others holder (other holder (stacked.top holder held))).1]
    exact stacked.top holder held
  · rw [(merges.others base (other base stacked.bottom)).1]
    exact stacked.bottom

/-- A select with several conjuncts is split into a stack of selects. -/
theorem WellFormed.split (wellFormed : plan.WellFormed) (holds : plan.HoldsReachable slot)
    (here : plan.nodeAt slot = .ok id) (isSelect : plan.operator id = .select condition)
    (several : 2 ≤ condition.conjuncts.length) (inputs : plan.inputs id = [base])
    (top : ∀ holder, slot.holder? = some holder → (plan.operator holder).kind ≠ .select)
    (bottom : (plan.operator base).kind ≠ .select) :
    ∃ plan', plan.splitSelect slot = .ok (some plan') ∧
      plan'.HoldsStack slot id base condition.conjuncts := by
  obtain ⟨first, next, rest, conjuncts⟩ : ∃ first next rest, condition.conjuncts = first :: next :: rest := by
    rcases found : condition.conjuncts with _ | ⟨first, _ | ⟨next, rest⟩⟩
    · rw [found] at several
      cases several
    · rw [found] at several
      cases several with | step impossible => cases impossible
    · exact ⟨first, next, rest, rfl⟩
  obtain ⟨plan', done⟩ : ∃ plan', plan.splitSelect slot = .ok (some plan') := by
    simp only [splitSelect, here, isSelect, conjuncts, input_of_single inputs, bind, Except.bind, pure,
      Except.pure]
    exact ⟨_, rfl⟩
  obtain ⟨chain, reworked, chained⟩ :=
    splitSelect_reworked wellFormed holds here isSelect conjuncts inputs done
  refine ⟨plan', done, reworked.wellFormed, holds.retained reworked.retains, reworked.rewired.here,
    fun holder held => ?_, ?_, chained.stack fun e member => Expr.conjuncts_of_mem member⟩
  · unfold operator
    rw [reworked.node (reworked.holder_not_mem held)]
    exact top holder held
  · unfold operator
    rw [reworked.node (reworked.base_not_mem List.mem_cons_self)]
    exact bottom

/-- In the end, a stack is one select. -/
theorem Stack.single (stack : plan.Stack base id es) (some : es ≠ [])
    (once : ¬ plan.SelectsTwice id) : plan.operator id = .select (.conjunction es) ∧
      plan.inputs id = [base] := by
  cases stack with
  | nil => exact absurd rfl some
  | @cons _ below fs rest isSelect _ _ inputs lower =>
    cases lower with
    | nil => exact ⟨by rw [List.append_nil]; exact isSelect, inputs⟩
    | cons isSelect' => exact absurd ⟨_, below, _, isSelect, inputs, isSelect'⟩ once

/-! ## The end of merging -/

/-- The ranks of the inputs of nodes up to a number, added up. -/
def inputRanks (plan : Plan) (rank : NodeId → Nat) (bound : Nat) : Nat :=
  ∑ n ∈ Finset.range bound, ((plan.inputs n).map rank).sum

theorem Merges.inputRanks_lt (merges : plan.Merges outer inner input upper lower plan')
    (descends : plan.Descends rank) (inside : ∀ n, plan.Reaches n → n < bound) :
    plan'.inputRanks rank bound < plan.inputRanks rank bound := by
  have nearer : ((plan'.inputs outer).map rank).sum < ((plan.inputs outer).map rank).sum := by
    rw [merges.inputs, merges.inputs']
    simpa using (merges.lower_rank descends).1
  refine Finset.sum_lt_sum (fun n _ => ?_)
    ⟨outer, Finset.mem_range.mpr (inside _ merges.reached), nearer⟩
  by_cases isOuter : n = outer
  · exact isOuter ▸ nearer.le
  · rw [(merges.others n isOuter).2]

end Plan

namespace Sweep

variable {w w' : Sweep} {slot held : Slot} {id n base : NodeId} {r : RuleState} {es : List Expr}
  {rank : NodeId → Nat} {bound k : Nat}

/-- Merging selects succeeds at every slot that a reachable node holds. It does nothing only if there is
    nothing to merge. -/
theorem exists_apply_mergeSelects (rules : w.rules = [r]) (rule : r.rule = .mergeSelects)
    (wellFormed : w.session.plan.WellFormed) (holds : w.session.plan.HoldsReachable slot)
    (here : w.session.plan.nodeAt slot = .ok id) (hook : Hook) :
    ∃ w', w.apply hook slot = .ok w' ∧ w'.rules = [r] ∧
      (w'.session = w.session ∧ w'.changed = w.changed ∧
          (hook = .before → ¬ w.session.plan.SelectsTwice id) ∨
        w'.changed = true ∧ Plan.Retains slot.holder? w.session.plan w'.session.plan ∧
          w'.session.plan.nodeAt slot = .ok id ∧ ∃ inner input upper lower,
            w.session.plan.Merges id inner input upper lower w'.session.plan) := by
  have isLocal : r.rule.transform? = some Plan.mergeSelects := by rw [rule]; rfl
  rw [apply_of_single rules]
  by_cases twice : w.session.plan.SelectsTwice id
  · have isMatch : r.rule.pattern.isMatch w.session.plan id = true :=
      rule ▸ Plan.isMatch_mergeSelects.mpr twice
    have matched : ¬ (!r.rule.pattern.isMatch w.session.plan id) = true := by simp [isMatch]
    cases hook with
    | before =>
      obtain ⟨plan', plan'', inner, input, upper, lower, done, refreshed, merges, retains, here'⟩ :=
        wellFormed.merges holds here twice
      have offered : r.offer .before slot w.session = .ok (r, w.session.withPlan plan', true) := by
        show r.before slot w.session = _
        rw [RuleState.before_of_transform? isLocal, done]
        rfl
      refine ⟨{ w with
        rules := [r], changed := true
        session := (w.session.withPlan plan'').mapContext (·.invalidate) }, ?_, rfl,
        .inr ⟨rfl, retains, here', inner, input, upper, lower, merges⟩⟩
      refine bind_ok_iff.mpr ⟨id, here, ?_⟩
      rw [if_neg matched]
      exact bind_ok_iff.mpr ⟨_, offered, bind_ok_iff.mpr
        ⟨w.session.withPlan plan'', bind_ok_iff.mpr ⟨plan'', refreshed, rfl⟩, rfl⟩⟩
    | after =>
      refine ⟨{ w with rules := [r] }, ?_, rfl, .inl ⟨rfl, rfl, fun impossible => by cases impossible⟩⟩
      refine bind_ok_iff.mpr ⟨id, here, ?_⟩
      rw [if_neg matched]
      exact bind_ok_iff.mpr ⟨_, RuleState.after_of_transform? isLocal, rfl⟩
  · have other : (!r.rule.pattern.isMatch w.session.plan id) = true := by
      rw [Bool.not_eq_true', Bool.eq_false_iff, rule]
      exact fun isMatch => twice (Plan.isMatch_mergeSelects.mp isMatch)
    refine ⟨{ w with rules := [r] }, bind_ok_iff.mpr ⟨id, here, ?_⟩, rfl, .inl ⟨rfl, rfl, fun _ => twice⟩⟩
    rw [if_pos other]
    rfl

/-- A sweep that merges nothing has seen that there is nothing to merge. -/
theorem attains_merged :
    Attains true .before (fun w => (∃ r, w.rules = [r] ∧ r.rule = .mergeSelects) ∧
      w.session.plan.WellFormed) fun s n => ¬ s.plan.SelectsTwice n where
  visit := fun ⟨⟨r, rules, rule⟩, wellFormed⟩ => ⟨⟨r, rules, rule⟩, wellFormed⟩
  offer := by
    rintro hook w w' slot id ⟨⟨r, rules, rule⟩, wellFormed⟩ holds here done calm
    obtain ⟨_, applied, rules', outcome⟩ :=
      exists_apply_mergeSelects rules rule wellFormed holds here hook
    cases applied.symm.trans done
    rcases outcome with ⟨session, _, once⟩ | ⟨changed, _⟩
    · rw [session]
      exact ⟨⟨⟨r, rules', rule⟩, wellFormed⟩, .refl _, fun _ met => met, once⟩
    · exact Bool.noConfusion ((calm rfl).symm.trans changed)

/-- A sweep that merges selects, which makes the ranks of inputs smaller if it changes anything. -/
structure Merging (slot : Slot) (id base : NodeId) (es : List Expr) (rank : NodeId → Nat) (bound k : Nat)
    (w : Sweep) : Prop where
  rules : ∃ r, w.rules = [r] ∧ r.rule = .mergeSelects
  stacked : w.session.plan.HoldsStack slot id base es
  descends : w.session.plan.Descends rank
  inside : ∀ n, w.session.plan.Reaches n → n < bound
  fewer : w.session.plan.inputRanks rank bound ≤ k
  changed : w.changed = true → w.session.plan.inputRanks rank bound < k

theorem Merging.apply {depth : NodeId → Nat} (merging : Merging held n base es rank bound k w)
    (shallow : w.session.plan.Descends depth) (holds : w.session.plan.HoldsReachable slot)
    (here : w.session.plan.nodeAt slot = .ok id) (hook : Hook) :
    ∃ w', w.apply hook slot = .ok w' ∧
      (Merging held n base es rank bound k w' ∧ w'.session.plan.Descends depth) ∧
      w.Stays slot.holder? w' ∧ w'.session.plan.nodeAt slot = .ok id := by
  obtain ⟨r, rules, rule⟩ := merging.rules
  obtain ⟨w', applied, rules', outcome⟩ :=
    exists_apply_mergeSelects rules rule merging.stacked.wellFormed holds here hook
  refine ⟨w', applied, ?_⟩
  rcases outcome with ⟨session, changed, _⟩ | ⟨changed, retains, here', inner, input, upper, lower, merges⟩
  · refine ⟨⟨⟨⟨r, rules', rule⟩, ?_, ?_, ?_, ?_, ?_⟩, ?_⟩, .of_plan_eq (congrArg Session.plan session), ?_⟩
    all_goals rw [session]
    · exact merging.stacked
    · exact merging.descends
    · exact merging.inside
    · exact merging.fewer
    · exact changed ▸ merging.changed
    · exact shallow
    · exact here
  · have less := (merges.inputRanks_lt merging.descends merging.inside).trans_le merging.fewer
    exact ⟨⟨⟨⟨r, rules', rule⟩, merging.stacked.merge merges, merges.descends merging.descends,
      fun n reached => merging.inside n (merges.reaches reached), less.le, fun _ => less⟩,
      merges.descends shallow⟩, ⟨retains, fun _ _ => merges.slots⟩, here'⟩

end Sweep

namespace Batch

variable {slot : Slot} {id base : NodeId} {es : List Expr} {rank : NodeId → Nat} {bound k : Nat}
  {s : Session} {rules : List RuleState} {name : String}

/-- The batch that merges selects until there is nothing to merge. -/
def merging (name : String) : Batch := .fixpoint name true [.mergeSelects]

theorem exists_sweep_merging (name : String)
    (start : Sweep.Merging slot id base es rank bound k { rules := rules, session := s }) :
    ∃ w, (merging name).sweep rules s = .ok w ∧ Sweep.Merging slot id base es rank bound k w := by
  obtain ⟨depth, shallow, low⟩ := start.stacked.wellFormed.exists_depth
  obtain ⟨w, swept, ⟨later, _⟩, _⟩ := Sweep.exists_sweepWithin
    (fun w => Sweep.Merging slot id base es rank bound k w ∧ w.session.plan.Descends depth)
    (fun _ _ ⟨m, shallow⟩ => ⟨⟨m.rules, m.stacked, m.descends, m.inside, m.fewer, m.changed⟩, shallow⟩)
    (fun _ inv => inv.2) (fun _ hook _ _ inv holds here => inv.1.apply inv.2 holds here hook)
    ⟨start, shallow⟩ (show s.plan.HoldsReachable .root from fun _ impossible => by cases impossible) rfl
    (low s.plan.root)
  exact ⟨w, swept, later⟩

theorem exists_sweepUntilStable_merging {sweeps : Nat} (name : String) (changed : Bool)
    (start : Sweep.Merging slot id base es rank bound k { rules := rules, session := s })
    (enough : k < sweeps) :
    ∃ s' changed', (merging name).sweepUntilStable sweeps changed rules s = .ok (s', changed') ∧
      s'.plan.HoldsStack slot id base es ∧ ∀ n, s'.plan.Reaches n → ¬ s'.plan.SelectsTwice n := by
  induction sweeps generalizing k rules s changed with
  | zero => cases enough
  | succ sweeps ih =>
    obtain ⟨w, swept, later⟩ := exists_sweep_merging name start
    cases changes : w.changed with
    | true =>
      have less := later.changed changes
      have next : Sweep.Merging slot id base es rank bound (w.session.plan.inputRanks rank bound)
          { rules := w.rules, session := w.session } :=
        ⟨later.rules, later.stacked, later.descends, later.inside, le_rfl, fun impossible => by
          cases impossible⟩
      obtain ⟨s', changed', done, rest⟩ := ih true next (by omega)
      refine ⟨s', changed', bind_ok_iff.mpr ⟨w, swept, ?_⟩, rest⟩
      rw [if_pos changes]
      exact done
    | false =>
      obtain ⟨_, _, once⟩ := Sweep.attains_merged.sweep (w := { rules := rules, session := s })
        ⟨start.rules, start.stacked.wellFormed⟩ rfl swept fun _ => changes
      refine ⟨w.session, changed, bind_ok_iff.mpr ⟨w, swept, ?_⟩, later.stacked, once⟩
      rw [if_neg (Bool.eq_false_iff.mp changes)]
      rfl

end Batch

/-- A select that is split can be merged again, if it stands between nodes that are no selects. Given
    enough sweeps, one select with all conjuncts in their order is left in its place, over the same
    input. -/
theorem split_select_is_merged_again {s : Session} {slot : Slot} {id input : NodeId} {condition : Expr}
    (name : String) (wellFormed : s.plan.WellFormed) (holds : s.plan.HoldsReachable slot)
    (here : s.plan.nodeAt slot = .ok id) (isSelect : s.plan.operator id = .select condition)
    (several : 2 ≤ condition.conjuncts.length) (inputs : s.plan.inputs id = [input])
    (top : ∀ holder, slot.holder? = some holder → (s.plan.operator holder).kind ≠ .select)
    (bottom : (s.plan.operator input).kind ≠ .select) :
    ∃ plan, s.plan.splitSelect slot = .ok (some plan) ∧ ∃ sweeps, ∀ n ≥ sweeps, ∃ s' changed,
      (Batch.merging name).run ((s.withPlan plan).allowing n) = .ok (s', changed) ∧
      s'.plan.Reaches id ∧ s'.plan.nodeAt slot = .ok id ∧
      s'.plan.operator id = .select (.conjunction condition.conjuncts) ∧ s'.plan.inputs id = [input] ∧
      (s'.plan.operator input).kind ≠ .select := by
  obtain ⟨plan, split, stacked⟩ :=
    wellFormed.split holds here isSelect several inputs top bottom
  obtain ⟨rank, falls⟩ := stacked.wellFormed.acyclic
  refine ⟨plan, split, plan.inputRanks rank plan.nodes.length + 1, fun n enough => ?_⟩
  have start : Sweep.Merging slot id input condition.conjuncts rank plan.nodes.length
      (plan.inputRanks rank plan.nodes.length)
      { rules := [{ rule := .mergeSelects }], session := (s.withPlan plan).allowing n } :=
    ⟨⟨_, rfl, rfl⟩, stacked, fun n reached c child => falls n reached c (Plan.mem_sources_of_child child),
      fun n reached => Plan.lt_of_contains (stacked.wellFormed.present n reached), le_rfl,
      fun impossible => by cases impossible⟩
  obtain ⟨s', changed, done, stacked', once⟩ :=
    Batch.exists_sweepUntilStable_merging name false start enough
  have reached := stacked'.holds.reaches stacked'.here
  have some : condition.conjuncts ≠ [] := List.ne_nil_of_length_pos (by omega)
  obtain ⟨operator, inputs'⟩ := stacked'.stack.single some (once id reached)
  have trimmed := s'.plan.trimmed_collectGarbage
  have reachedInput : s'.plan.Reaches input := reached.input (by simp [inputs'])
  refine ⟨Batch.collectGarbage s', changed, bind_ok_iff.mpr ⟨(s', changed), done, rfl⟩,
    trimmed.reaches_iff.mpr reached, ?_, (trimmed.operator reached).trans operator,
    (trimmed.inputs reached).trans inputs', ?_⟩
  · refine (Plan.nodeAt_congr trimmed.root fun holder held => ?_).mpr stacked'.here
    have reached := stacked'.holds holder held
    exact ⟨trimmed.inputs reached, congrArg Operator.nested (trimmed.operator reached)⟩
  · rw [show (Batch.collectGarbage s').plan.operator input = _ from trimmed.operator reachedInput]
    exact stacked'.bottom

/-- A select with nested conjunctions over a scan, below a limit. -/
def nestedConjuncts : Session where
  plan := {
    nodes := [
      some (.above .emptySource []),
      some (.above (.scan "S" [1, 2, 3]) [0]),
      some (.above (.select (.call .and [.call .and [.var 1, .var 2] [], .var 3] [])) [1]),
      some (.above (.limit 5 none) [2])],
    root := 3 }

/-- The select is split into three, and becomes one without nested conjunctions. -/
theorem split_select_is_merged_again_nested :
    ∃ plan, nestedConjuncts.plan.splitSelect (.input 3 0) = .ok (some plan) ∧
      plan.operator 2 = .select (.var 1) ∧ ∃ sweeps, ∀ n ≥ sweeps, ∃ s changed,
        (Batch.merging "merge").run ((nestedConjuncts.withPlan plan).allowing n) = .ok (s, changed) ∧
        s.plan.operator 2 = .select (.call .and [.var 1, .var 2, .var 3] []) ∧
        s.plan.inputs 2 = [1] := by
  have wellFormed : nestedConjuncts.plan.WellFormed :=
    .of_flat ⟨by decide, by decide⟩ (by decide) (by decide) (by decide)
  have atRoot : ∀ holder, Slot.holder? (.input 3 0) = some holder → 3 = holder := fun _ => Option.some.inj
  have holds : nestedConjuncts.plan.HoldsReachable (.input 3 0) := fun holder held =>
    atRoot holder held ▸ .refl
  obtain ⟨plan, split, sweeps, merged⟩ := split_select_is_merged_again "merge" wellFormed holds rfl rfl
    (by decide) rfl (fun holder held => atRoot holder held ▸ by decide) (by decide)
  refine ⟨plan, split, ?_, sweeps, fun n enough => ?_⟩
  · cases split
    rfl
  · obtain ⟨s, changed, run, _, _, operator, inputs, _⟩ := merged n enough
    exact ⟨s, changed, run, operator, inputs⟩

/-- A select with two conjuncts below another select. -/
def stackedSelects : Session where
  plan := {
    nodes := [
      some (.above .emptySource []),
      some (.above (.scan "S" [1, 2, 3]) [0]),
      some (.above (.select (.call .and [.var 2, .var 3] [])) [1]),
      some (.above (.select (.var 1)) [2])],
    root := 3 }

/-- A select below another one is merged into that one. -/
theorem split_select_below_select :
    ((stackedSelects.plan.splitSelect (.input 3 0)).toOption.join.bind fun plan =>
      ((Batch.merging "merge").run (stackedSelects.withPlan plan)).toOption.map fun result =>
        (result.2, result.1.plan.root, result.1.plan.operator 3, result.1.plan.inputs 3)) =
      some (true, 3, .select (.call .and [.var 1, .var 2, .var 3] []), [1]) := by
  decide +kernel

end QueryOptimizer
