import Mathlib
import QueryOptimizer.Batch
import QueryOptimizer.Proofs.Relational.Classes
import QueryOptimizer.Proofs.Relational.SelectRules

/-! # Inlined variables have equal values

A variable is replaced by one that the same input provides, that is no copy of a variable itself, and
that is equal in all tuples of the input. One renaming serves all inputs of a node, though: if a
variable reaches the node from two inputs, it is replaced in both, by what one of them says.
-/

namespace QueryOptimizer

variable {s s' : Session} {columns : NodeId → VarSet} {I : Interpretation} {id : NodeId} {vars : VarSet}

namespace Session

/-- Whether an input of a node provides a variable and its replacement, and they are equal in all its
    tuples. -/
def Agree (s : Session) (I : Interpretation) (id : NodeId) (v w : Var) : Prop :=
  ∃ input ∈ s.plan.inputs id, v ∈ s.plan.columns input ∧ w ∈ s.plan.columns input ∧
    ∀ frames ts, s.plan.Invocation I frames → s.plan.Yields I frames input ts → ∀ t ∈ ts, t v = t w

/-- Deriving facts makes no copies, and neither does a renaming that leads out of the set. -/
theorem inlineable_rename (grows : s.Grows s' columns) (inside : ∀ v ∈ s.inlineable, v ∈ vars)
    {renames : Renaming} (out : renames.LeadsOut vars) {v : Var}
    (member : v ∈ (s'.withPlan (s'.plan.setOperator id
      ((s'.plan.operator id).rename renames))).inlineable) : v ∈ vars := by
  obtain ⟨n, reached, copied⟩ := mem_inlineable.mp member
  obtain ⟨plan, facts, rfl, regrouped⟩ := grows.derives
  have reachedPlan : plan.Reaches n :=
    (Plan.Redrawn.setOperator plan id (.rename _ renames)).reaches_iff.mp reached
  have derived : ∀ v ∈ (plan.operator n).copies s.context.kept, v ∈ vars := by
    intro v copied
    refine inside v (mem_inlineable.mpr ⟨n, regrouped.redrawn.reaches_iff.mp reachedPlan, ?_⟩)
    have regroups := regrouped.operator n
    generalize s.plan.operator n = op, plan.operator n = op' at regroups copied
    cases regroups with
    | same => exact copied
    | groupBy => cases copied
  rcases Plan.operator_setOperator_cases plan id n ((plan.operator id).rename renames) with
    same | ⟨rfl, renamed⟩
  · refine derived v ?_
    rw [← same]
    exact copied
  · refine Operator.copies_rename out derived ?_
    rw [← renamed]
    exact copied

section Valid

variable (accurate : s.Accurate columns) (current : s.plan.SchemasCurrent)
  (scope : s.plan.InScope) (once : s.plan.ProducedOnce)

include accurate current scope once

/-- A variable that is no copy is not assigned from a variable, unless it has to be kept. -/
theorem kept_of_not_inlineable {n : NodeId} {vs : List Var} {es : List Expr} {w source : Var}
    (outside : w ∉ s.inlineable) (reached : s.plan.Reaches n)
    (operator : s.plan.operator n = .assign vs es) (assigned : (w, .var source) ∈ vs.zip es) :
    w ∈ s.context.kept := by
  by_contra free
  have different : source ≠ w := by
    rintro rfl
    obtain ⟨isVar, isExpr⟩ := List.of_mem_zip assigned
    obtain ⟨c, isInput, inside⟩ := scope.reads reached operator isExpr source
      List.mem_cons_self
    exact once.fresh current scope accurate.wellFormed reached (by rw [operator]; exact isVar) isInput
      inside
  refine outside (mem_inlineable.mpr ⟨n, reached, ?_⟩)
  rw [operator]
  exact Operator.mem_copies_assign.mpr ⟨source, assigned, different, free⟩

variable (apart : s.plan.InputsApart)

include apart

theorem replaces_agree (reached : s.plan.Reaches id) {input : NodeId}
    (isInput : input ∈ s.plan.inputs id) :
    Replaces vars (fun t => t.Accurate columns ∧ s.Grows t columns)
      (fun entry => entry.1 ∈ vars ∧ entry.2 ∉ vars ∧ s.Agree I id entry.1 entry.2) input := by
  intro t t' facts before derived
  obtain ⟨accurateT, grows⟩ := before
  have reachedInput := reached.input isInput
  have reachedT : t.plan.Reaches input := grows.regrouped.redrawn.reaches_iff.mpr reachedInput
  obtain ⟨ensured, noted⟩ := facts_ok derived
  obtain ⟨accurate', grows', _⟩ := accurateT.ensureFactsWithin reachedT ensured
  refine ⟨⟨accurate', grows.trans grows'⟩, fun visible v w schema isVar visibleV replaced => ?_⟩
  obtain ⟨isMember, visibleW, outside⟩ := replacement?_some replaced
  -- The columns may have changed their order, when group-bys below were simplified.
  have listed : ∀ u, u ∈ visible ↔ u ∈ s.plan.columns input := by
    intro u
    obtain ⟨vs, stored, _⟩ := current input reachedInput
    rw [Plan.columns_of_schema stored]
    exact (sameVars_of_ofList (accurateT.stores input visible reachedT schema) u).trans
      (sameVars_of_ofList (accurate.stores input vs reachedInput stored) u).symm
  have finds := accurate'.found input facts (grows'.regrouped.redrawn.reaches_iff.mpr reachedT) noted
  have equates := finds.equates (grows.trans grows').regrouped accurate.wellFormed current scope once
    apart reachedInput (I := I)
  exact ⟨isVar, outside, input, isInput, (listed v).mp visibleV, (listed w).mp visibleW,
    fun frames ts invoked run u member =>
      ((equates frames ts invoked run u member).holds.membersOf isMember).symm⟩

/-- An inlining that changes a node replaces variables by ones that agree with them. -/
theorem inlineAt_agrees {slot : Slot} (holds : s.plan.HoldsReachable slot)
    (here : s.plan.nodeAt slot = .ok id) (done : s.inlineAt vars slot = .ok (s', true)) :
    ∃ s₁ renames, s.Grows s₁ columns ∧
      (∀ entry ∈ renames, entry.1 ∈ vars ∧ entry.2 ∉ vars ∧ s.Agree I id entry.1 entry.2) ∧
      s' = s₁.withPlan (s₁.plan.setOperator id ((s₁.plan.operator id).rename renames)) := by
  have replaces : ∀ {id' input}, s.plan.nodeAt slot = .ok id' → input ∈ s.plan.inputs id' →
      Replaces vars (fun t => t.Accurate columns ∧ s.Grows t columns)
        (fun entry => entry.1 ∈ vars ∧ entry.2 ∉ vars ∧ s.Agree I id entry.1 entry.2) input := by
    intro id' input here' isInput
    obtain rfl : id = id' := Except.ok.inj (here.symm.trans here')
    exact replaces_agree accurate current scope once apart (holds.reaches here) isInput
  rcases inlineAt_cases (P := fun t => t.Accurate columns ∧ s.Grows t columns)
    ⟨accurate, .refl s columns⟩ replaces done with
    ⟨impossible, _⟩ | ⟨_, _, s₁, id', renames, here', ⟨_, grows⟩, entries, _, changed⟩
  · cases impossible
  · obtain rfl : id = id' := Except.ok.inj (here.symm.trans here')
    exact ⟨s₁, renames, grows, entries, changed⟩

end Valid

end Session

/-- Inlining replaces variables of a node by variables with equal values. Every input that provides
    such a variable provides what replaces it, and no copy of another variable replaces it. The rule
    knows the copies that there are, unless it starts with the slot, and still knows them afterwards.
    On the way, group-bys may be simplified. -/
theorem inlining_replaces_equals {r r' : RuleState} {slot : Slot} (accurate : s.Accurate columns)
    (current : s.plan.SchemasCurrent) (valid : s.plan.validate false = .ok ())
    (once : s.plan.ProducedOnce) (apart : s.plan.InputsApart) (rule : r.rule = .inlineVariables)
    (collected : slot ≠ .root → ∀ v ∈ s.inlineable, v ∈ r.vars)
    (holds : s.plan.HoldsReachable slot) (here : s.plan.nodeAt slot = .ok id)
    (fired : r.before slot s = .ok (r', s', true)) :
    (∃ op renames, (s.plan.operator id).Regroups op ∧ s'.plan.operator id = op.rename renames ∧
      ∀ v, renames.apply v ≠ v →
        (∃ input ∈ s.plan.inputs id, v ∈ s.plan.columns input) ∧
        (∀ input ∈ s.plan.inputs id, v ∈ s.plan.columns input →
          renames.apply v ∈ s.plan.columns input ∧ ∀ frames ts, s.plan.Invocation I frames →
            s.plan.Yields I frames input ts → ∀ t ∈ ts, t v = t (renames.apply v)) ∧
        ∀ n vs es source, s.plan.Reaches n → s.plan.operator n = .assign vs es →
          (renames.apply v, .var source) ∈ vs.zip es → renames.apply v ∈ s.context.kept) ∧
    ∀ v ∈ s'.inlineable, v ∈ r'.vars := by
  have scope := Plan.inScope_of_validate valid
  have reached : s.plan.Reaches id := holds.reaches here
  unfold RuleState.before at fired
  rw [rule] at fired
  obtain ⟨⟨s₁, changed⟩, done, fired⟩ := bind_ok_iff.mp fired
  cases pure_ok_iff.mp fired
  -- At the root the rule has just collected the copies.
  have known : ∀ v ∈ s.inlineable,
      v ∈ (if slot = .root then { r with vars := s.inlineable } else r).vars := by
    intro v copied
    split
    · exact copied
    · rename_i below
      exact collected below v copied
  rw [← rule] at done ⊢
  obtain ⟨s₁, renames, grows, entries, rfl⟩ :=
    Session.inlineAt_agrees accurate current scope once apart holds here done (I := I)
  have out : renames.LeadsOut _ := Renaming.leadsOut_of_entries fun entry member =>
    ⟨(entries entry member).1, (entries entry member).2.1⟩
  refine ⟨⟨s₁.plan.operator id, renames, grows.regrouped.operator id, ?_, fun v renamed => ?_⟩,
    fun v copied => Session.inlineable_rename grows known out copied⟩
  · exact Plan.operator_setOperator_self ((grows.regrouped.contains id).trans
      (accurate.wellFormed.present id reached))
  · obtain ⟨_, outside, input, isInput, provided, replaced, equal⟩ :=
      entries _ (Renaming.mem_of_apply_ne renamed)
    refine ⟨⟨input, isInput, provided⟩, fun input' isInput' provided' => ?_,
      fun n vs es source reachedN operator assigned => ?_⟩
    · obtain rfl := apart.unique accurate.wellFormed reached isInput isInput' provided provided'
      exact ⟨replaced, equal⟩
    · exact Session.kept_of_not_inlineable accurate current scope once
        (fun copied => outside (known _ copied)) reachedN operator assigned

/-- A session that has no notes is accurate. -/
theorem Session.Accurate.of_current (wellFormed : s.plan.WellFormed) (has : s.plan.HasColumns columns)
    (current : s.plan.SchemasCurrent) (unnoted : s.context.facts = {}) : s.Accurate columns := by
  have none : ∀ n facts, s.context.facts.get? n ≠ some facts := by
    intro n facts noted
    rw [unnoted] at noted
    cases noted
  exact ⟨wellFormed, has, wellFormed.stores_of_current has current,
    fun n facts noted => absurd noted (none n facts),
    fun n facts _ noted => absurd noted (none n facts),
    fun n facts _ noted => absurd noted (none n facts)⟩

/-- A select that reads a copy. -/
def copiedSession : Session where
  plan := {
    nodes := [
      some { Node.above .emptySource [] with schema := some [] },
      some { Node.above (.scan "S" [1]) [0] with schema := some [1] },
      some { Node.above (.assign [2] [.var 1]) [1] with schema := some [1, 2] },
      some { Node.above (.select (.var 2)) [2] with schema := some [1, 2] }],
    root := 3 }
  context := { catalog := ⟨[{ name := "S", columns := [("a", .boolean)] }]⟩ }

/-- A copy is replaced by its source, which has the same value. -/
theorem inlining_replaces_equals_copy : ∃ r s,
    ({ rule := .inlineVariables } : RuleState).before .root copiedSession = .ok (r, s, true) ∧
      s.plan.operator 3 = .select (.var 1) ∧
      ∀ ts, copiedSession.plan.Yields settledWorld .outer 2 ts → ∀ t ∈ ts, t 2 = t 1 := by
  have holds : copiedSession.plan.HoldsReachable .root := fun holder impossible => by
    cases impossible
  have wellFormed : copiedSession.plan.WellFormed :=
    .of_flat ⟨by decide, by decide⟩ (by decide) (by decide) (by decide)
  have reaches : ∀ {id}, copiedSession.plan.Reaches id → id ∈ [3, 2, 1, 0] := Plan.mem_reachable
  have current : copiedSession.plan.SchemasCurrent := by
    intro id reached
    have member := reaches reached
    fin_cases member <;> exact ⟨_, rfl, rfl⟩
  have apart : copiedSession.plan.InputsApart := by
    intro id reached
    have member := reaches reached
    fin_cases member <;> decide
  obtain ⟨columns, has⟩ := wellFormed.exists_columns
  obtain ⟨⟨op, renames, regroups, renamed, each⟩, _⟩ := inlining_replaces_equals
    (.of_current wellFormed has current rfl) current rfl (by decide) apart rfl
    (fun impossible => absurd rfl impossible) holds rfl
    (r := { rule := .inlineVariables }) rfl (I := settledWorld)
  have isSelect : op = .select (.var 2) := regroups.eq_of_not_groupBy fun _ _ _ impossible => by
    cases impossible
  subst isSelect
  have source : renames.apply 2 = 1 := by
    have same : Operator.select (.var 1) = .select (.var (renames.apply 2)) := renamed
    exact (Expr.var.inj (Operator.select.inj same)).symm
  obtain ⟨_, equal, _⟩ := each 2 (by rw [source]; decide)
  refine ⟨_, _, rfl, rfl, fun ts run t member => ?_⟩
  have same := (equal 2 (by decide) (by decide)).2 .outer ts .outer run t member
  rwa [source] at same

/-- A world in which every data source has one row of two values. -/
noncomputable def pairedWorld : Interpretation :=
  { settledWorld with rows := fun _ => [[.boolean true, .boolean false]] }

/-- A union inside a nested plan, both sides of which come from the input of the owner. Only on the
    right side are the two variables equal. -/
def unionSession : Session where
  plan := {
    nodes := [
      some { Node.above .emptySource [] with schema := some [] },
      some { Node.above (.scan "S" [1, 9]) [0] with schema := some [1, 9] },
      some { Node.above (.assign [2] [.var 1]) [1] with schema := some [1, 9, 2] },
      some { Node.above (.project [2, 9]) [2] with schema := some [2, 9] },
      some { Node.above (.nestedSource 9) [] with schema := some [2, 9] },
      some { Node.above (.nestedSource 9) [] with schema := some [2, 9] },
      some { Node.above (.select (.call .eq [.var 2, .var 9] [])) [5] with schema := some [2, 9] },
      some { Node.above (.unionAll [⟨2, 2, 10⟩]) [4, 6] with schema := some [10] },
      some { Node.above (.aggregate [11] [.call .sum [.var 10] []]) [7] with schema := some [11] },
      some { Node.above (.subplan [[8]]) [3] with schema := some [2, 9, 11] }],
    root := 9 }
  context := { catalog := ⟨[{ name := "S", columns := [("a", .boolean), ("b", .boolean)] }]⟩ }

/-- A variable that reaches a union from two inputs is replaced in both, although in a tuple of the
    first input it does not equal what replaces it. -/
theorem inlining_replaces_unequal : unionSession.plan.validate false = .ok () ∧
    unionSession.plan.ProducedOnce ∧ (∀ n ∈ unionSession.plan.reachable,
      unionSession.plan.isShared n = false) ∧
    (∃ r s, ({ rule := .inlineVariables, vars := unionSession.inlineable } : RuleState).before
        (.input 8 0) unionSession = .ok (r, s, true) ∧
      unionSession.plan.operator 7 = .unionAll [⟨2, 2, 10⟩] ∧
      s.plan.operator 7 = .unionAll [⟨9, 9, 10⟩]) ∧
    ∃ frames t, unionSession.plan.Invocation pairedWorld frames ∧
      unionSession.plan.Yields pairedWorld frames 4 [t] ∧ t 2 ≠ t 9 := by
  refine ⟨rfl, by decide, by decide, ⟨_, _, rfl, rfl, rfl⟩, ?_⟩
  let scanned : Tuple := Tuple.empty.extend [1, 9] [.boolean true, .boolean false]
  let assigned : Tuple := scanned.extend [2] [.boolean true]
  let kept : Tuple := assigned.restrict [2, 9]
  have bottom : unionSession.plan.Yields pairedWorld .outer 0 [Tuple.empty] :=
    @Plan.Yields.plain _ _ _ _ (fun _ => []) _ (fun _ _ impossible => by cases impossible)
      (fun _ _ => rfl) rfl
  have scan : unionSession.plan.operator 1 = .scan "S" [1, 9] := rfl
  have rows : unionSession.plan.Yields pairedWorld .outer 1 [scanned] :=
    (Plan.yields_single_iff scan trivial rfl rfl).mpr ⟨_, bottom, rfl⟩
  have assign : unionSession.plan.operator 2 = .assign [2] [.var 1] := rfl
  have values : unionSession.plan.Yields pairedWorld .outer 2 [assigned] :=
    (Plan.yields_single_iff assign trivial rfl rfl).mpr
      ⟨_, rows, [[.boolean true]], .cons ⟨_, [], rfl, rfl, rfl⟩ .nil, rfl⟩
  have project : unionSession.plan.operator 3 = .project [2, 9] := rfl
  have outer : unionSession.plan.Yields pairedWorld .outer 3 [kept] :=
    (Plan.yields_single_iff project trivial rfl rfl).mpr ⟨_, values, rfl⟩
  have isSource : unionSession.plan.operator 4 = .nestedSource 9 := rfl
  exact ⟨Frames.outer.enter 9 [kept], kept, .enter .outer .refl rfl outer fun _ member => member,
    .nestedSource isSource (if_pos rfl), by decide⟩

end QueryOptimizer
