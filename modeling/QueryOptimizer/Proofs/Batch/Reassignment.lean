import Mathlib
import QueryOptimizer.Proofs.Batch.Persistence

/-! # Assigning algorithms again

An assignment gives every reachable node an algorithm that persists, unless a join exchanges its sides. A
second assignment then chooses the same algorithms and changes nothing. A join that exchanges its sides
does so again: its hint names a side, and the other input is on that side now.
-/

namespace QueryOptimizer

namespace Session

variable {s s' t : Session} {columns : NodeId → VarSet} {id n : NodeId} {physical : Physical}

/-- What is below a reachable node stays there. -/
theorem Later.below_iff {m : NodeId} (later : s.Later t columns) (reached : s.plan.Reaches n) :
    t.plan.Below n m ↔ s.plan.Below n m := by
  refine Plan.Below.congr (fun c reached => ?_) reached
  unfold Plan.children Plan.nestedRoots
  rw [later.inputs reached, (later.operator reached).nested_eq]

theorem Later.inNested_iff (later : s.Later t columns) : t.plan.InNested n ↔ s.plan.InNested n := by
  have roots : ∀ {owner}, s.plan.Reaches owner → t.plan.nestedRoots owner = s.plan.nestedRoots owner := by
    intro owner reached
    unfold Plan.nestedRoots
    rw [(later.operator reached).nested_eq]
  constructor
  · rintro ⟨owner, root, reached, isRoot, below⟩
    have reached := later.reaches.mp reached
    rw [roots reached] at isRoot
    exact ⟨owner, root, reached, isRoot, (later.below_iff (reached.nestedRoot isRoot)).mp below⟩
  · rintro ⟨owner, root, reached, isRoot, below⟩
    refine ⟨owner, root, later.reaches.mpr reached, ?_, (later.below_iff (reached.nestedRoot isRoot)).mpr below⟩
    rwa [roots reached]

/-- Whether a node has the algorithm that is chosen for it, now and later. -/
def Fixed (s : Session) (columns : NodeId → VarSet) (n : NodeId) : Prop :=
  ∃ physical, (s.plan.node n).physical = some physical ∧
    ∀ isNested : Bool, (isNested = true ↔ s.plan.InNested n) → s.Persists columns n isNested physical

theorem Fixed.later (fixed : s.Fixed columns n) (later : s.Later t columns)
    (same : (t.plan.node n).physical = (s.plan.node n).physical) : t.Fixed columns n := by
  obtain ⟨physical, chosen, persists⟩ := fixed
  refine ⟨physical, same.trans chosen, fun isNested nested => ?_⟩
  exact (persists isNested (nested.trans later.inNested_iff)).later later

/-- The algorithm is put into the node, and schemas are computed again. -/
theorem Steady.setPhysical {plan : Plan} (steady : s.Steady columns) (reached : s.plan.Reaches id)
    (admits : (s.plan.operator id).Admits physical)
    (refreshed : (s.plan.setPhysical id physical).refreshSchemas = .ok plan) :
    ((s.withPlan plan).mapContext (·.invalidate)).Steady columns ∧
      s.Later ((s.withPlan plan).mapContext (·.invalidate)) columns ∧
      s.plan.Regrouped plan ∧ (plan.node id).physical = some physical ∧
      ∀ n, n ≠ id → (plan.node n).physical = (s.plan.node n).physical := by
  obtain ⟨accurate, current, assigns, _⟩ := steady.accurate.setPhysical reached admits refreshed
  have later : s.Later ((s.withPlan plan).mapContext (·.invalidate)) columns :=
    .of_regrouped assigns.regrouped rfl assigns.used rfl
  have only := Plan.refreshSchemas_only refreshed
  refine ⟨steady.later later accurate current (.of_empty rfl), later, assigns.regrouped,
    (only.physical id).trans ?_, fun n different => (only.physical n).trans ?_⟩
  · unfold Plan.setPhysical
    rw [Plan.node_modify_self (steady.accurate.wellFormed.present id reached)]
  · unfold Plan.setPhysical
    rw [Plan.node_modify_of_ne different]

/-- After a choice, the node is fixed, and nodes that were fixed before are. -/
theorem Steady.choosePhysical {nodes : List NodeId} {slot : Slot} {fired : Bool}
    (steady : s.Steady columns) (nested : ∀ n, n ∈ nodes ↔ s.plan.InNested n)
    (here : s.plan.nodeAt slot = .ok id) (reached : s.plan.Reaches id)
    (done : s.choosePhysical nodes slot = .ok (s', fired))
    (outcome : fired = false ∧ t = s' ∨ fired = true ∧ ∃ plan, s'.plan.refreshSchemas = .ok plan ∧
      t = (s'.withPlan plan).mapContext (·.invalidate)) :
    t.Steady columns ∧ s.plan.Regrouped t.plan ∧ s.Later t columns ∧ t.Fixed columns id ∧
      ∀ n, s.Fixed columns n → t.Fixed columns n := by
  obtain ⟨_, here', done⟩ := bind_ok_iff.mp done
  cases here.symm.trans here'
  obtain ⟨⟨s₁, physical⟩, chosen, done⟩ := bind_ok_iff.mp done
  obtain ⟨steady₁, regrouped, later, persists, physicals⟩ := steady.physicalFor reached chosen
  have persists : ∀ isNested : Bool, (isNested = true ↔ s₁.plan.InNested id) →
      s₁.Persists columns id isNested physical := by
    intro isNested asked
    have same : isNested = decide (id ∈ nodes) := by
      rw [Bool.eq_iff_iff, asked, decide_eq_true_iff, nested id]
      exact later.inNested_iff
    rw [same]
    exact persists
  dsimp only at done
  split at done
  · rename_i unchanged
    cases pure_ok_iff.mp done
    rcases outcome with ⟨_, rfl⟩ | ⟨impossible, _⟩
    · simp only [Bool.and_eq_true, decide_eq_true_eq] at unchanged
      exact ⟨steady₁, regrouped, later, ⟨physical, unchanged.1, persists⟩,
        fun n fixed => fixed.later later (physicals n)⟩
    · cases impossible
  · cases pure_ok_iff.mp done
    rcases outcome with ⟨impossible, _⟩ | ⟨_, plan, refreshed, rfl⟩
    · cases impossible
    · obtain ⟨steady₂, later₂, regrouped₂, set, others⟩ := steady₁.setPhysical
        (later.reaches.mpr reached) (physicalFor_chooses chosen).2 refreshed
      have fixed : ((s₁.withPlan plan).mapContext (·.invalidate)).Fixed columns id :=
        ⟨physical, set, fun isNested asked =>
          (persists isNested (asked.trans later₂.inNested_iff)).later later₂⟩
      refine ⟨steady₂, regrouped.trans regrouped₂, later.trans later₂, fixed, fun n earlier => ?_⟩
      by_cases same : n = id
      · exact same ▸ fixed
      · exact earlier.later (later.trans later₂) ((others n same).trans (physicals n))

/-- The choice for a fixed node is not new. -/
theorem Fixed.choosePhysical {nodes : List NodeId} {slot : Slot} (fixed : s.Fixed columns id)
    (later : s.Later t columns) (same : t.plan = s.plan) (steady : t.Steady columns)
    (nested : ∀ n, n ∈ nodes ↔ t.plan.InNested n) (here : t.plan.nodeAt slot = .ok id) :
    ∃ t', t.choosePhysical nodes slot = .ok (t', false) ∧ t'.plan = t.plan := by
  obtain ⟨physical, set, persists⟩ := fixed
  have asked : decide (id ∈ nodes) = true ↔ s.plan.InNested id := by
    rw [decide_eq_true_iff, nested id]
    exact later.inNested_iff
  obtain ⟨t', chosen, plan⟩ := persists _ asked t later steady
  refine ⟨t', bind_ok_iff.mpr ⟨id, here, bind_ok_iff.mpr ⟨_, chosen, if_pos ?_⟩⟩, plan⟩
  simp only [plan, same, set, decide_true, Bool.and_self]

end Session

namespace Sweep

variable {w w' : Sweep} {columns : NodeId → VarSet} {slot : Slot} {id : NodeId} {fuel : Nat}

/-- Whether the one rule of a sweep is the choice of algorithms, and has collected the nodes of nested
    plans. -/
def KnowsNested (w : Sweep) : Prop :=
  ∃ r, w.rules = [r] ∧ r.rule = .choosePhysical ∧ ∀ n, n ∈ r.nodes ↔ w.session.plan.InNested n

theorem KnowsNested.before (knows : w.KnowsNested) (here : w.session.plan.nodeAt slot = .ok id) :
    ∃ rules, w.apply .before slot = .ok { w with rules := rules } ∧
      KnowsNested { w with rules := rules } := by
  obtain ⟨r, rules, rule, nodes⟩ := knows
  refine ⟨_, apply_before_choice rules rule here, _, rfl, ?_⟩
  split
  · exact ⟨rule, fun n => Plan.mem_nestedNodes_iff⟩
  · exact ⟨rule, nodes⟩

/-- An assignment fixes every node that it is offered. -/
theorem attains_fixed (columns : NodeId → VarSet) :
    Attains false .after (fun w => w.KnowsNested ∧ w.session.Steady columns)
      fun s n => s.Fixed columns n where
  visit := fun ⟨⟨r, rules, known⟩, steady⟩ => ⟨⟨r, rules, known⟩, steady⟩
  offer := by
    rintro hook w w' slot id ⟨knows, steady⟩ holds here done _
    cases hook with
    | before =>
      obtain ⟨rules', applied, knows'⟩ := knows.before here
      cases applied.symm.trans done
      exact ⟨⟨knows', steady⟩, .refl _, fun _ met => met, fun impossible => by cases impossible⟩
    | after =>
      obtain ⟨r, rules, rule, nodes⟩ := knows
      obtain ⟨s, fired, chosen, rules', _, outcome⟩ := apply_after_choice_cases rules rule done
      obtain ⟨steady', regrouped, later, fixed, kept⟩ :=
        steady.choosePhysical nodes here (holds.reaches here) chosen outcome
      have nodes' := fun n => (nodes n).trans (later.inNested_iff (n := n)).symm
      exact ⟨⟨⟨r, rules', rule, nodes'⟩, steady'⟩, regrouped, kept, fun _ => fixed⟩

/-- A sweep that assigns algorithms, with the nodes of nested plans. -/
def assigning (s : Session) : Sweep where
  rules := [{ rule := .choosePhysical, nodes := s.plan.nestedNodes }]
  session := s

/-- The nodes of nested plans are collected at the root. -/
theorem sweepWithin_assigning (s : Session) (fuel : Nat) :
    sweepWithin true fuel { rules := [{ rule := .choosePhysical }], session := s } .root =
      sweepWithin true fuel (assigning s) .root := by
  cases fuel with
  | zero => rfl
  | succ fuel =>
    unfold sweepWithin
    have here : s.plan.nodeAt .root = .ok s.plan.root := rfl
    rw [apply_before_choice rfl rfl here, apply_before_choice (w := assigning s) rfl rfl here]
    rfl

end Sweep

namespace Session

variable {s s' : Session} {columns : NodeId → VarSet} {changed : Bool}

theorem assignment_run_ok_iff : assignment.run s = .ok (s', changed) ↔
    ∃ w, Sweep.sweepWithin true s.plan.sweepDepth (Sweep.assigning s) .root = .ok w ∧
      s' = Batch.collectGarbage w.session ∧ changed = w.changed := by
  rw [← Sweep.sweepWithin_assigning]
  unfold Batch.run
  rw [if_neg (show ¬ assignment.controller.untilStable = true from Bool.false_ne_true)]
  constructor
  · intro done
    obtain ⟨w, swept, done⟩ := bind_ok_iff.mp done
    cases pure_ok_iff.mp done
    exact ⟨w, swept, rfl, rfl⟩
  · rintro ⟨w, swept, rfl, rfl⟩
    exact bind_ok_iff.mpr ⟨w, swept, rfl⟩

theorem knowsNested_assigning (s : Session) : (Sweep.assigning s).KnowsNested :=
  ⟨_, rfl, rfl, fun _ => Plan.mem_nestedNodes_iff⟩

/-- Collecting garbage changes nothing that choices depend on. -/
theorem Steady.collectGarbage (steady : s.Steady columns) :
    (Batch.collectGarbage s).Steady columns ∧ s.Later (Batch.collectGarbage s) columns := by
  have wellFormed := steady.accurate.wellFormed
  have trimmed := s.plan.trimmed_collectGarbage
  have context := Context.forgetAll_eq s.context s.plan.garbage
  have catalog := catalog_collectGarbage s
  have later : s.Later (Batch.collectGarbage s) columns := {
    reaches := trimmed.reaches_iff
    inputs := trimmed.inputs
    hints := fun reached => congrArg Node.hints (trimmed.node reached)
    operator := fun reached => by
      rw [show (Batch.collectGarbage s).plan.operator _ = _ from trimmed.operator reached]
      exact .same _
    used := fun reached _ => trimmed.operator reached
    finds := fun reached finds => catalog ▸ trimmed.finds wellFormed reached finds
    sizes := fun reached sized => catalog ▸ trimmed.hasSize reached sized
    config := (congrArg Context.config context :) }
  refine ⟨steady.later later steady.accurate.collectGarbage
    (trimmed.schemasCurrent wellFormed steady.current) fun n size reached noted => ?_, later⟩
  have reached := later.reaches.mp reached
  exact later.sizes reached (steady.sizes n size reached (sizes_collectGarbage noted))

/-- After an assignment, every reachable node is fixed. -/
theorem Steady.run (steady : s.Steady columns) (done : assignment.run s = .ok (s', changed)) :
    s'.Steady columns ∧ s'.plan.garbage = [] ∧ ∀ n, s'.plan.Reaches n → s'.Fixed columns n := by
  obtain ⟨w, swept, rfl, _⟩ := assignment_run_ok_iff.mp done
  obtain ⟨⟨_, steady'⟩, _, fixed⟩ := (Sweep.attains_fixed columns).sweep
    ⟨knowsNested_assigning s, steady⟩ rfl swept fun impossible => by cases impossible
  obtain ⟨collected, later⟩ := steady'.collectGarbage
  have trimmed := w.session.plan.trimmed_collectGarbage
  refine ⟨collected, w.session.plan.garbage_collectGarbage, fun n reached => ?_⟩
  have reached := later.reaches.mp reached
  exact (fixed n reached).later later (congrArg Node.physical (trimmed.node reached))

/-- A sweep that has not changed the plan so far. -/
def Quiet (s : Session) (columns : NodeId → VarSet) (w : Sweep) : Prop :=
  w.KnowsNested ∧ w.session.Steady columns ∧ w.session.plan = s.plan ∧ s.Later w.session columns ∧
    w.changed = false

/-- A sweep stays quiet at nodes that are fixed. -/
theorem Quiet.apply {w : Sweep} {hook : Hook} {slot : Slot} {id : NodeId} (quiet : s.Quiet columns w)
    (fixed : ∀ n, s.plan.Reaches n → s.Fixed columns n) (holds : s.plan.HoldsReachable slot)
    (here : s.plan.nodeAt slot = .ok id) : ∃ w', w.apply hook slot = .ok w' ∧ s.Quiet columns w' := by
  obtain ⟨knows, steady, plan, later, changed⟩ := quiet
  have here' : w.session.plan.nodeAt slot = .ok id := plan ▸ here
  cases hook with
  | before =>
    obtain ⟨rules, applied, knows'⟩ := knows.before here'
    exact ⟨_, applied, knows', steady, plan, later, changed⟩
  | after =>
    obtain ⟨r, rules, rule, nodes⟩ := knows
    have reached := holds.reaches here
    obtain ⟨t, chosen, plan'⟩ := (fixed id reached).choosePhysical later plan steady nodes here'
    obtain ⟨steady', _, later', _, _⟩ := steady.choosePhysical nodes here'
      (later.reaches.mpr reached) chosen (.inl ⟨rfl, rfl⟩)
    refine ⟨{ w with session := t }, ?_, ⟨r, rules, rule, fun n => ?_⟩, steady', plan'.trans plan,
      later.trans later', changed⟩
    · rw [Sweep.apply_after_choice rules rule here']
      exact bind_ok_iff.mpr ⟨_, chosen, rfl⟩
    · exact (nodes n).trans later'.inNested_iff.symm

/-- If every reachable node is fixed, an assignment changes nothing. -/
theorem Steady.rerun (steady : s.Steady columns) (clean : s.plan.garbage = [])
    (fixed : ∀ n, s.plan.Reaches n → s.Fixed columns n) :
    ∃ s', assignment.run s = .ok (s', false) ∧ s'.plan = s.plan := by
  obtain ⟨rank, falls, low⟩ := steady.accurate.wellFormed.exists_depth
  have start : s.Quiet columns (.assigning s) :=
    ⟨knowsNested_assigning s, steady, rfl, .of_same rfl rfl rfl, rfl⟩
  have holds : s.plan.HoldsReachable .root := fun _ impossible => by cases impossible
  have here : s.plan.nodeAt .root = .ok s.plan.root := rfl
  obtain ⟨w, swept, ⟨_, _, plan, _, changed⟩, _⟩ := Sweep.exists_sweepWithin (s.Quiet columns)
    (fun w id ⟨⟨r, rules, known⟩, rest⟩ => ⟨⟨r, rules, known⟩, rest⟩)
    (fun w quiet => quiet.2.2.1.symm ▸ falls) (fun w hook slot id quiet holds here => by
      obtain ⟨w', applied, quiet'⟩ := quiet.apply fixed (quiet.2.2.1 ▸ holds) (quiet.2.2.1 ▸ here)
      have same := quiet'.2.2.1.trans quiet.2.2.1.symm
      exact ⟨w', applied, quiet', .of_plan_eq same, same.symm ▸ here⟩) start holds here (low s.plan.root)
  refine ⟨_, assignment_run_ok_iff.mpr ⟨w, swept, rfl, changed.symm⟩, ?_⟩
  show w.session.plan.collectGarbage.1 = s.plan
  unfold Plan.collectGarbage
  rw [plan, clean]
  rfl

/-- A second assignment changes nothing, if no join exchanges its sides in the first one. -/
theorem assignment_changes_nothing_again (accurate : s.Accurate columns) (current : s.plan.SchemasCurrent)
    (sizes : s.SizesFound) (still : ∀ n, s.plan.Reaches n → ¬ s.plan.Exchanging n)
    (done : assignment.run s = .ok (s', changed)) :
    ∃ s'', assignment.run s' = .ok (s'', false) ∧ s''.plan = s'.plan := by
  obtain ⟨steady, clean, fixed⟩ := Steady.run ⟨accurate, current, sizes, still⟩ done
  exact steady.rerun clean fixed

/-- Computes schemas and assigns algorithms twice. Returns the sessions before and after each assignment,
    and whether the second one reports a change. -/
def assignTwice (s : Session) : Except Failure (Session × Session × Session × Bool) := do
  let s ← s.refreshSchemas
  let s' ← assignment.run s
  let s'' ← assignment.run s'.1
  return (s, s'.1, s''.1, s''.2)

/-- Groups of an outer join. The inner join below it asks for its left side to be broadcast, but its
    condition asks for the right side. -/
def joinedGroups : Session where
  plan := {
    nodes := [
      some (.above .emptySource []),
      some (.above (.scan "A" [1, 2]) [0]),
      some (.above (.scan "B" [3]) [0]),
      some { Node.above (.join .inner (.call .eq [.var 3, .var 1] [("broadcast", "right")])) [1, 2] with
        hints := [("broadcast-side", "left")] },
      some (.above (.scan "C" [4]) [0]),
      some { Node.above (.join .leftOuter (.call .eq [.var 2, .var 4] [])) [3, 4] with
        hints := [("broadcast-side", "left")] },
      some (.above (.nestedSource 9) []),
      some (.above (.order [(.desc, .var 3)] none) [6]),
      some (.above (.aggregate [7] [.call .count [.var 3] []]) [7]),
      some (.above (.groupBy [(5, .var 1), (6, .var 3)] [] [[8]]) [5]),
      some (.above (.order [(.asc, .var 5)] none) [9])],
    root := 10 }
  context := { catalog := ⟨[
    { name := "A", columns := [("a", .integer .int64), ("b", .utf8)], key := ["a"] },
    { name := "B", columns := [("c", .integer .int64)], statistics := some ⟨100, 8⟩ },
    { name := "C", columns := [("d", .utf8)] }]⟩ }

theorem joinedGroups_wellFormed : joinedGroups.plan.WellFormed :=
  .of_regular (.of_nodes ⟨by simp [joinedGroups], by simp [joinedGroups]⟩ rfl (by decide)) id
    (fun n => if n = 6 ∨ n = 7 ∨ n = 8 then [9] else []) (by decide) rfl

theorem joinedGroups_still {n : NodeId} {kind : JoinKind} {condition : Expr}
    (operator : joinedGroups.plan.operator n = .join kind condition) :
    ¬ joinedGroups.plan.Exchanges n kind condition := by
  match n with
  | 3 => cases operator; decide
  | 5 => cases operator; decide
  | 0 | 1 | 2 | 4 | 6 | 7 | 8 | 9 | 10 => cases operator
  | n + 11 => cases operator

/-- Keys are moved and sorts are chosen by the first assignment, and stay. -/
theorem assignment_changes_nothing_again_joinedGroups : ∃ t s' s'' columns changed, t.Accurate columns ∧
    t.plan.SchemasCurrent ∧ t.SizesFound ∧ (∀ n, t.plan.Reaches n → ¬ t.plan.Exchanging n) ∧
    assignment.run t = .ok (s', changed) ∧ t.plan.operator 9 ≠ s'.plan.operator 9 ∧
    assignment.run s' = .ok (s'', false) ∧ s''.plan = s'.plan := by
  have run : (joinedGroups.assignTwice.toOption.map fun run =>
      decide (run.1.plan.operator 9 ≠ run.2.1.plan.operator 9)) = some true := by
    decide +kernel
  obtain ⟨_, done, seen⟩ := Option.map_eq_some_iff.mp run
  obtain ⟨t, refreshed, done⟩ := bind_ok_iff.mp (toOption_eq_some_iff.mp done)
  obtain ⟨⟨s', changed⟩, assigned, done⟩ := bind_ok_iff.mp done
  obtain ⟨_, _, done⟩ := bind_ok_iff.mp done
  cases pure_ok_iff.mp done
  obtain ⟨plan, computed, rfl⟩ := refreshSchemas_ok refreshed
  obtain ⟨columns, has⟩ := joinedGroups_wellFormed.exists_columns
  have accurate : (joinedGroups.withPlan plan).Accurate columns :=
    .of_refreshed joinedGroups_wellFormed has computed rfl
  have current := joinedGroups_wellFormed.current_refreshed computed
  have sizes : (joinedGroups.withPlan plan).SizesFound := .of_empty rfl
  have only := Plan.refreshSchemas_only computed
  have still : ∀ n, plan.Reaches n → ¬ plan.Exchanging n := by
    rintro n _ ⟨kind, condition, _, _, _, _, operator, _, _, _, ⟨inner, named⟩, _⟩
    refine joinedGroups_still ((only.operator n).symm.trans operator) ⟨inner, ?_⟩
    unfold Plan.namedSide? at named ⊢
    rw [← only.hints n]
    exact named
  obtain ⟨s'', again, same⟩ := assignment_changes_nothing_again accurate current sizes still assigned
  exact ⟨_, s', s'', columns, changed, accurate, current, sizes, still, assigned, of_decide_eq_true seen, again,
    same⟩

/-- A join that asks for its left side to be broadcast. -/
def broadcastJoin : Session where
  plan := {
    nodes := [
      some (.above .emptySource []),
      some (.above (.scan "A" [1]) [0]),
      some (.above (.scan "B" [2]) [0]),
      some { Node.above (.join .inner (.call .eq [.var 1, .var 2] [])) [1, 2] with
        hints := [("broadcast-side", "left")] }],
    root := 3 }
  context := { catalog := ⟨[
    { name := "A", columns := [("a", .integer .int64)] },
    { name := "B", columns := [("b", .integer .int64)] }]⟩ }

/-- The join with two parents. -/
def sharedBroadcast : Session where
  plan := {
    nodes := broadcastJoin.plan.nodes ++ [
      some (.above (.select (.call .eq [.var 1, .var 1] [])) [3]),
      some (.above (.unionAll [⟨1, 1, 3⟩]) [3, 4])],
    root := 5 }
  context := broadcastJoin.context

/-- A second assignment exchanges the sides back. If the join has two parents, one assignment does, and
    the input that was named is not broadcast. -/
theorem assignment_exchanges_back :
    (broadcastJoin.assignTwice.toOption.map fun run =>
      (run.1.plan.inputs 3, run.2.1.plan.inputs 3, run.2.2.1.plan.inputs 3, run.2.2.2)) =
        some ([1, 2], [2, 1], [1, 2], true) ∧
    (sharedBroadcast.assignTwice.toOption.map fun run =>
      (run.1.plan.inputs 3, run.2.1.plan.inputs 3, run.2.2.1.plan.inputs 3, run.2.2.2)) =
        some ([1, 2], [1, 2], [1, 2], true) := by
  decide +kernel

end Session

end QueryOptimizer
