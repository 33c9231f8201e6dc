import Mathlib
import QueryOptimizer.Proofs.Batch.Freshness
import QueryOptimizer.Proofs.Batch.Visits
import QueryOptimizer.Proofs.Implementation.Enforcers

/-! # After physical operators were assigned

The assignment visits every reachable node and chooses an algorithm for it. If no join exchanges its
sides on the way, the facts of all group-bys can be found on the plan afterwards. Deriving facts again
then simplifies nothing, and enforcement keeps the outline of the plan.
-/

namespace QueryOptimizer

theorem Operator.Regroups.admits {op op' : Operator} {physical : Physical} (regroups : op.Regroups op')
    (admits : op.Admits physical) : op'.Admits physical := by
  cases regroups with
  | same => exact admits
  | groupBy => exact admits

namespace Plan

variable {plan plan' : Plan} {id n c : NodeId} {slot : Slot}

/-- Whether no inner join asks for its left side to be broadcast. -/
def KeepsSides (plan : Plan) : Prop :=
  ∀ n condition, plan.Reaches n → plan.operator n = .join .inner condition →
    ¬ plan.BroadcastsLeft n condition

theorem Regrouped.keepsSides (regrouped : plan.Regrouped plan') (keeps : plan.KeepsSides) :
    plan'.KeepsSides := by
  intro n condition reached isJoin asked
  have isJoin' : plan.operator n = .join .inner condition := by
    have regroups := regrouped.operator n
    rw [isJoin] at regroups
    generalize plan.operator n = op at regroups
    cases regroups
    rfl
  refine keeps n condition (regrouped.redrawn.reaches_iff.mp reached) isJoin' ?_
  unfold BroadcastsLeft at asked ⊢
  rw [← regrouped.hints n]
  exact asked

end Plan

namespace Session

variable {s s' s'' : Session} {columns : NodeId → VarSet} {id n : NodeId} {slot : Slot} {fired : Bool}

/-- A session with notes and schemas that can be relied on, for a plan whose joins keep their sides. -/
structure Assigning (s : Session) (columns : NodeId → VarSet) : Prop where
  accurate : s.Accurate columns
  current : s.plan.SchemasCurrent
  keepsSides : s.plan.KeepsSides

/-- Whether the algorithm of a node implements its operator. -/
def Implemented (s : Session) (n : NodeId) : Prop :=
  ∃ physical, (s.plan.node n).physical = some physical ∧ (s.plan.operator n).Admits physical

/-- Whether the facts of a node, if it is a group-by, can be found on the plan. -/
def Settled (s : Session) (columns : NodeId → VarSet) (n : NodeId) : Prop :=
  ∀ keys decor nested, s.plan.operator n = .groupBy keys decor nested →
    ∃ facts, s.plan.Finds s.context.catalog columns n facts

/-- Only group-bys change, and no settled ones. -/
theorem Settled.operator_eq {op : Operator} (settled : s.Settled columns n)
    (regroups : (s.plan.operator n).Regroups op)
    (used : ∀ facts, s.plan.Finds s.context.catalog columns n facts → op = s.plan.operator n) :
    op = s.plan.operator n := by
  by_cases isGroup : ∃ keys decor nested, s.plan.operator n = .groupBy keys decor nested
  · obtain ⟨keys, decor, nested, shape⟩ := isGroup
    obtain ⟨facts, finds⟩ := settled keys decor nested shape
    exact used facts finds
  · exact regroups.eq_of_not_groupBy fun keys decor nested shape => isGroup ⟨keys, decor, nested, shape⟩

/-- A session in which more algorithms may be chosen. -/
structure Assigns (s s' : Session) (columns : NodeId → VarSet) : Prop where
  regrouped : s.plan.Regrouped s'.plan
  catalog : s'.context.catalog = s.context.catalog
  used : ∀ n facts, s.plan.Finds s.context.catalog columns n facts →
    s'.plan.operator n = s.plan.operator n
  implemented : ∀ n, s.Implemented n → s'.Implemented n

namespace Assigns

theorem of_grows (grows : s.Grows s' columns) : s.Assigns s' columns := by
  refine ⟨grows.regrouped, grows.catalog, grows.used, fun n ⟨physical, chosen, admits⟩ => ?_⟩
  exact ⟨physical, (grows.physical n).trans chosen, (grows.regrouped.operator n).admits admits⟩

variable (assigns : s.Assigns s' columns)

include assigns

theorem finds {facts : Facts} (finds : s.plan.Finds s.context.catalog columns n facts) :
    s'.plan.Finds s'.context.catalog columns n facts := by
  rw [assigns.catalog]
  exact finds.regrouped assigns.regrouped assigns.used

theorem trans (later : s'.Assigns s'' columns) : s.Assigns s'' columns where
  regrouped := assigns.regrouped.trans later.regrouped
  catalog := later.catalog.trans assigns.catalog
  used n facts finds := (later.used n facts (assigns.finds finds)).trans (assigns.used n facts finds)
  implemented n implemented := later.implemented n (assigns.implemented n implemented)

theorem settled (settled : s.Settled columns n) : s'.Settled columns n := by
  intro keys decor nested shape
  have regroups := assigns.regrouped.operator n
  rw [shape] at regroups
  obtain ⟨keys', decor', shape', _⟩ := regroups.symm.of_groupBy
  obtain ⟨facts, finds⟩ := settled keys' decor' nested shape'
  exact ⟨facts, assigns.finds finds⟩

end Assigns

/-- The algorithm is put into the node, and schemas are computed again. -/
theorem Accurate.setPhysical {physical : Physical} {plan : Plan} (accurate : s.Accurate columns)
    (reached : s.plan.Reaches id) (admits : (s.plan.operator id).Admits physical)
    (refreshed : (s.plan.setPhysical id physical).refreshSchemas = .ok plan) :
    ((s.withPlan plan).mapContext (·.invalidate)).Accurate columns ∧ plan.SchemasCurrent ∧
      s.Assigns ((s.withPlan plan).mapContext (·.invalidate)) columns ∧
      ((s.withPlan plan).mapContext (·.invalidate)).Implemented id := by
  have wellFormed := accurate.wellFormed
  have first := Plan.Regrouped.setPhysical s.plan id physical
  have only := Plan.refreshSchemas_only refreshed
  have operator : ∀ n, plan.operator n = s.plan.operator n := fun n =>
    (only.operator n).trans (Plan.operator_modify fun _ => rfl)
  have wellFormed' := first.redrawn.wellFormed wellFormed
  have implemented : ((s.withPlan plan).mapContext (·.invalidate)).Implemented id := by
    refine ⟨physical, (only.physical id).trans ?_, operator id ▸ admits⟩
    unfold Plan.setPhysical
    rw [Plan.node_modify_self (wellFormed.present id reached)]
  refine ⟨.of_refreshed wellFormed' (accurate.has.regrouped first) refreshed rfl,
    wellFormed'.current_refreshed refreshed,
    ⟨first.trans only.regrouped, rfl, fun n _ _ => operator n, fun n ⟨other, chosen, admits⟩ => ?_⟩,
    implemented⟩
  rcases Plan.node_setPhysical_cases s.plan id n physical with same | ⟨rfl, _⟩
  · refine ⟨other, (only.physical n).trans ?_, operator n ▸ admits⟩
    rw [same]
    exact chosen
  · exact implemented

namespace Assigning

variable (assigning : s.Assigning columns)

include assigning

theorem grows (accurate : s'.Accurate columns) (grows : s.Grows s' columns) : s'.Assigning columns :=
  ⟨accurate, grows.current assigning.current, grows.regrouped.keepsSides assigning.keepsSides⟩

/-- If joins keep their sides, the choice of an algorithm estimates sizes at most. -/
theorem picks (reached : s.plan.Reaches id) (picks : s.Picks id s') :
    s'.Assigning columns ∧ s.Assigns s' columns ∧ ∃ sizes, s' = s.withSizes sizes := by
  obtain ⟨plan, rfl | ⟨_, condition, operator, asked⟩, later⟩ := picks
  · obtain ⟨sizes, rfl⟩ : ∃ sizes, s' = s.withSizes sizes := by
      rcases later with rfl | ⟨input, frames, _, estimated⟩
      · exact ⟨s.context.sizes, rfl⟩
      · exact frames?_frame estimated
    exact ⟨⟨assigning.accurate.withSizes sizes, assigning.current, assigning.keepsSides⟩,
      ⟨.refl _, rfl, fun _ _ _ => rfl, fun _ implemented => implemented⟩, sizes, rfl⟩
  · exact absurd asked (assigning.keepsSides id condition reached operator)

/-- Before an algorithm is chosen for a group-by, its facts are derived. -/
theorem chooses (reached : s.plan.Reaches id) (chooses : s.Chooses id s') :
    s'.Assigning columns ∧ s.Assigns s' columns ∧ s'.Settled columns id := by
  obtain ⟨s₁, ⟨rfl, other⟩ | derived, picks⟩ := chooses
  · obtain ⟨assigning', assigns, sizes, rfl⟩ := assigning.picks reached picks
    exact ⟨assigning', assigns, fun keys decor nested shape => absurd shape (other keys decor nested)⟩
  · obtain ⟨accurate₁, grows, facts, noted⟩ := assigning.accurate.ensureFacts reached derived
    have reached₁ := grows.regrouped.redrawn.reaches_iff.mpr reached
    obtain ⟨assigning', assigns, sizes, rfl⟩ := (assigning.grows accurate₁ grows).picks reached₁ picks
    exact ⟨assigning', (Assigns.of_grows grows).trans assigns, fun _ _ _ _ =>
      ⟨facts, accurate₁.found id facts reached₁ noted⟩⟩

theorem setPhysical {physical : Physical} {plan : Plan} (reached : s.plan.Reaches id)
    (admits : (s.plan.operator id).Admits physical)
    (refreshed : (s.plan.setPhysical id physical).refreshSchemas = .ok plan) :
    ((s.withPlan plan).mapContext (·.invalidate)).Assigning columns ∧
      s.Assigns ((s.withPlan plan).mapContext (·.invalidate)) columns ∧
      ((s.withPlan plan).mapContext (·.invalidate)).Implemented id := by
  obtain ⟨accurate, current, assigns, implemented⟩ :=
    assigning.accurate.setPhysical reached admits refreshed
  exact ⟨⟨accurate, current, assigns.regrouped.keepsSides assigning.keepsSides⟩, assigns, implemented⟩

end Assigning

end Session

namespace Sweep

variable {w w' : Sweep} {columns : NodeId → VarSet} {slot : Slot} {id : NodeId}

/-- Whether the one rule of a sweep is the choice of algorithms. -/
def ChoosesPhysical (w : Sweep) : Prop := ∃ r, w.rules = [r] ∧ r.rule = .choosePhysical

/-- Only the node of a slot that holds one is offered. -/
theorem exists_nodeAt {hook : Hook} {r : RuleState} (rules : w.rules = [r])
    (done : w.apply hook slot = .ok w') : ∃ id, w.session.plan.nodeAt slot = .ok id := by
  unfold apply at done
  rw [rules] at done
  obtain ⟨_, offered, _⟩ := foldlM_cons_ok_iff.mp done
  obtain ⟨id, here, _⟩ := applyRule_cases offered
  exact ⟨id, here⟩

section

variable {r : RuleState} (rules : w.rules = [r]) (rule : r.rule = .choosePhysical)
  (here : w.session.plan.nodeAt slot = .ok id)

include rules rule here

/-- On the way down, the nodes of nested plans are collected at the root. -/
theorem apply_before_choice : w.apply .before slot = .ok { w with
    rules := [if slot = .root then { r with nodes := w.session.plan.nestedNodes } else r] } := by
  unfold apply
  rw [rules]
  refine foldlM_cons_ok_iff.mpr ⟨_, bind_ok_iff.mpr ⟨id, here, ?_⟩, rfl⟩
  rw [rule]
  show (r.before slot w.session >>= _) = _
  unfold RuleState.before
  rw [rule]
  rfl

/-- On the way up, the algorithm of the node is chosen. If it is new, schemas are computed again, and
    notes are lost. -/
theorem apply_after_choice : w.apply .after slot = do
    let (s, fired) ← w.session.choosePhysical r.nodes slot
    if fired then
      let s ← s.refreshSchemas
      return { w with session := s.mapContext (·.invalidate), changed := true }
    else return { w with session := s } := by
  unfold apply
  rw [rules, List.foldlM_cons]
  have offered : applyRule .after slot { w with rules := [] } r = do
      let (s, fired) ← w.session.choosePhysical r.nodes slot
      if fired then
        let s ← s.refreshSchemas
        return { w with rules := [r], session := s.mapContext (·.invalidate), changed := true }
      else return { w with rules := [r], session := s } := by
    unfold applyRule
    rw [here, rule]
    show (r.after slot w.session >>= _) = _
    unfold RuleState.after
    rw [rule]
    cases w.session.choosePhysical r.nodes slot <;> rfl
  rw [offered, ← rules]
  cases w.session.choosePhysical r.nodes slot with
  | error e => rfl
  | ok result =>
    obtain ⟨s, fired⟩ := result
    cases fired with
    | false => rfl
    | true =>
      simp only [bind, Except.bind, if_true]
      cases s.refreshSchemas <;> rfl

end

section

variable {r : RuleState} (rules : w.rules = [r]) (rule : r.rule = .choosePhysical)

include rules rule

theorem apply_after_choice_cases (done : w.apply .after slot = .ok w') :
    ∃ s fired, w.session.choosePhysical r.nodes slot = .ok (s, fired) ∧ w'.rules = [r] ∧
      w'.visited = w.visited ∧ (fired = false ∧ w'.session = s ∨
        fired = true ∧ ∃ plan, s.plan.refreshSchemas = .ok plan ∧
          w'.session = (s.withPlan plan).mapContext (·.invalidate)) := by
  obtain ⟨id, here⟩ := exists_nodeAt rules done
  rw [apply_after_choice rules rule here] at done
  obtain ⟨⟨s, fired⟩, chosen, done⟩ := bind_ok_iff.mp done
  refine ⟨s, fired, chosen, ?_⟩
  cases fired with
  | false =>
    cases pure_ok_iff.mp done
    exact ⟨rules, rfl, .inl ⟨rfl, rfl⟩⟩
  | true =>
    obtain ⟨s', refreshed, done⟩ := bind_ok_iff.mp done
    cases pure_ok_iff.mp done
    obtain ⟨plan, computed, rfl⟩ := Session.refreshSchemas_ok refreshed
    exact ⟨rules, rfl, .inr ⟨rfl, plan, computed, rfl⟩⟩

end

namespace ChoosesPhysical

variable (chooses : w.ChoosesPhysical)

include chooses

theorem before (done : w.apply .before slot = .ok w') :
    w'.ChoosesPhysical ∧ w'.session = w.session ∧ w'.visited = w.visited := by
  obtain ⟨r, rules, rule⟩ := chooses
  obtain ⟨id, here⟩ := exists_nodeAt rules done
  cases (apply_before_choice rules rule here).symm.trans done
  refine ⟨⟨_, rfl, ?_⟩, rfl, rfl⟩
  split
  · exact rule
  · exact rule

/-- A node that is offered gets an algorithm. -/
theorem after (assigning : w.session.Assigning columns) (here : w.session.plan.nodeAt slot = .ok id)
    (reached : w.session.plan.Reaches id) (done : w.apply .after slot = .ok w') :
    w'.ChoosesPhysical ∧ w'.session.Assigning columns ∧ w'.visited = w.visited ∧
      w.session.Assigns w'.session columns ∧ w'.session.Implemented id ∧ w'.session.Settled columns id := by
  obtain ⟨r, rules, rule⟩ := chooses
  obtain ⟨s, fired, chosen, rules', visited, outcome⟩ := apply_after_choice_cases rules rule done
  have chooses' : w'.ChoosesPhysical := ⟨r, rules', rule⟩
  obtain ⟨_, s₁, physical, here', chooses, admits, step⟩ := Session.choosePhysical_cases chosen
  cases here.symm.trans here'
  obtain ⟨assigning₁, assigns, settled⟩ := assigning.chooses reached chooses
  rcases step with ⟨rfl, rfl, same, _⟩ | ⟨rfl, rfl⟩
  · rcases outcome with ⟨_, session⟩ | ⟨impossible, _⟩
    · rw [session]
      exact ⟨chooses', assigning₁, visited, assigns, ⟨physical, same, admits⟩, settled⟩
    · cases impossible
  · rcases outcome with ⟨impossible, _⟩ | ⟨_, plan, refreshed, session⟩
    · cases impossible
    · have reached₁ := assigns.regrouped.redrawn.reaches_iff.mpr reached
      obtain ⟨assigning₂, later, implemented⟩ := assigning₁.setPhysical reached₁ admits refreshed
      rw [session]
      exact ⟨chooses', assigning₂, visited, assigns.trans later, implemented, later.settled settled⟩

end ChoosesPhysical

/-- The assignment implements every node that it is offered, and settles its facts. -/
theorem attains_implementation (columns : NodeId → VarSet) :
    Attains false .after (fun w => w.ChoosesPhysical ∧ w.session.Assigning columns)
      fun s n => s.Implemented n ∧ s.Settled columns n where
  visit := fun ⟨⟨r, rules, rule⟩, assigning⟩ => ⟨⟨r, rules, rule⟩, assigning⟩
  offer := by
    rintro hook w w' slot id ⟨chooses, assigning⟩ holds here done _
    cases hook with
    | before =>
      obtain ⟨chooses', session, _⟩ := chooses.before done
      rw [session]
      exact ⟨⟨chooses', session ▸ assigning⟩, .refl _, fun _ met => met, fun impossible => by
        cases impossible⟩
    | after =>
      obtain ⟨chooses', assigning', _, assigns, implemented, settled⟩ :=
        chooses.after assigning here (holds.reaches here) done
      exact ⟨⟨chooses', assigning'⟩, assigns.regrouped, fun n ⟨earlier, found⟩ =>
        ⟨assigns.implemented n earlier, assigns.settled found⟩, fun _ => ⟨implemented, settled⟩⟩

end Sweep

namespace Plan.Trimmed

variable {plan plan' : Plan} {n : NodeId} (trimmed : plan.Trimmed plan')

include trimmed

theorem schemasCurrent (wellFormed : plan.WellFormed) (current : plan.SchemasCurrent) :
    plan'.SchemasCurrent := by
  intro n reached
  have reached := trimmed.reaches_iff.mp reached
  obtain ⟨vs, stored, computed⟩ := current n reached
  refine ⟨vs, ?_, ?_⟩
  · rw [schema_ok_iff, trimmed.node reached]
    exact schema_ok_iff.mp stored
  · refine schemaFromChildren_congr (trimmed.operator reached) (trimmed.inputs reached)
      (fun owner isSource => ?_) (fun c source => ?_) computed
    · rw [trimmed.inputs (wellFormed.reaches_of_reads reached (.source isSource)).1]
    · rw [trimmed.node (wellFormed.reaches_source reached source)]

theorem keepsSides (keeps : plan.KeepsSides) : plan'.KeepsSides := by
  intro n condition reached isJoin asked
  have reached := trimmed.reaches_iff.mp reached
  refine keeps n condition reached (trimmed.operator reached ▸ isJoin) ?_
  unfold BroadcastsLeft at asked ⊢
  rw [← trimmed.node reached]
  exact asked

end Plan.Trimmed

namespace Session

variable {s s' s'' : Session} {columns : NodeId → VarSet} {n : NodeId} {changed changed' : Bool}

/-- The batch that chooses algorithms for all operators. -/
def assignment : Batch := .once "physical-operator-assignment" true [.choosePhysical]

/-- After the assignment, every reachable node has an algorithm, and the facts of group-bys can be found
    on the plan. -/
theorem Assigning.run (assigning : s.Assigning columns) (done : assignment.run s = .ok (s', changed)) :
    s'.Assigning columns ∧ ∀ n, s'.plan.Reaches n → s'.Implemented n ∧ s'.Settled columns n := by
  unfold Batch.run at done
  rw [if_neg (show ¬ assignment.controller.untilStable = true from Bool.false_ne_true)] at done
  obtain ⟨w, swept, done⟩ := bind_ok_iff.mp done
  cases pure_ok_iff.mp done
  obtain ⟨⟨_, assigning'⟩, _, filled⟩ := (Sweep.attains_implementation columns).sweep
    (w := { rules := [{ rule := .choosePhysical }], session := s }) ⟨⟨_, rfl, rfl⟩, assigning⟩ rfl swept
    fun impossible => by cases impossible
  have wellFormed := assigning'.accurate.wellFormed
  have trimmed := w.session.plan.trimmed_collectGarbage
  have catalog := catalog_collectGarbage w.session
  refine ⟨⟨assigning'.accurate.collectGarbage, trimmed.schemasCurrent wellFormed assigning'.current,
    trimmed.keepsSides assigning'.keepsSides⟩, fun n reached => ?_⟩
  have reached := trimmed.reaches_iff.mp reached
  obtain ⟨⟨physical, chosen, admits⟩, settled⟩ := filled n reached
  refine ⟨⟨physical, ?_, ?_⟩, fun keys decor nested shape => ?_⟩
  · exact (congrArg Node.physical (trimmed.node reached)).trans chosen
  · exact (trimmed.operator reached).symm ▸ admits
  · obtain ⟨facts, finds⟩ := settled keys decor nested ((trimmed.operator reached).symm.trans shape)
    exact ⟨facts, catalog.symm ▸ trimmed.finds wellFormed reached finds⟩

/-- If the facts of all group-bys can be found, deriving facts changes nothing about the plan. -/
theorem Assigning.ensureFacts (assigning : s.Assigning columns)
    (settled : ∀ n, s.plan.Reaches n → s.Settled columns n)
    (done : s.ensureFacts s.plan.root = .ok s') : s'.plan = s.plan := by
  have accurate := assigning.accurate
  obtain ⟨accurate', grows, facts, noted⟩ := accurate.ensureFacts .refl done
  have regrouped := grows.regrouped
  have operator : ∀ n, s.plan.Reaches n → s'.plan.operator n = s.plan.operator n :=
    fun n reached => (settled n reached).operator_eq (regrouped.operator n) (grows.used n)
  have finds : s.plan.Finds s.context.catalog columns s.plan.root facts := by
    have finds := accurate'.found s.plan.root facts (regrouped.redrawn.reaches_iff.mpr .refl) noted
    rw [grows.catalog] at finds
    refine Grounded.transfer s.plan.Reaches finds .refl (fun n reached c source => ?_)
      (fun n _ => (regrouped.sources n).symm) fun {n notes facts} reached _ follow => ⟨?_, ?_⟩
    · exact accurate.wellFormed.reaches_source reached (regrouped.sources n ▸ source)
    · rw [← operator n reached, ← regrouped.inputs n]
      exact follow.simple
    · have follow := follow.follow
      unfold Plan.ins at follow ⊢
      rw [← operator n reached, ← regrouped.tupleSources n]
      exact follow
  obtain ⟨rank, falls, low⟩ := accurate.wellFormed.exists_height
  have schemas : s.plan.HasSchemas := fun n reached => by
    obtain ⟨vs, stored, _⟩ := assigning.current n reached
    exact ⟨vs, stored⟩
  obtain ⟨t, derived, same⟩ := accurate.exists_ensureFactsWithin schemas falls .refl finds
    (Nat.lt_succ_of_le (low s.plan.root))
  cases done.symm.trans derived
  exact same

/-- Enforcement after an assignment keeps the outline and the schema of the plan, if no join asks for its
    left side to be broadcast. Nothing is left out of the outline but exchanges, orders that keep all
    tuples, and projects to exactly the schema of their input. -/
theorem enforcement_keeps_outline (accurate : s.Accurate columns) (current : s.plan.SchemasCurrent)
    (keepsSides : s.plan.KeepsSides) (assigned : assignment.run s = .ok (s', changed))
    (enforced : s'.enforceLayouts = .ok (s'', changed')) :
    (∃ outline, s'.plan.outline? = some outline ∧ s''.plan.outline? = some outline) ∧
      ∃ vs, s'.plan.schema s'.plan.root = .ok vs ∧ s''.plan.schema s''.plan.root = .ok vs := by
  obtain ⟨assigning, filled⟩ := Assigning.run ⟨accurate, current, keepsSides⟩ assigned
  have wellFormed := assigning.accurate.wellFormed
  obtain ⟨kept, wellFormed'⟩ : s'.plan.SameOutline s''.plan ∧ s''.plan.WellFormed := by
    rcases assigning.accurate.enforceLayouts enforced with
      ⟨rfl, _⟩ | ⟨s₁, fuel, _, derived, _, _, ready, done⟩
    · exact ⟨.refl _, wellFormed⟩
    · have same := assigning.ensureFacts (fun n reached => (filled n reached).2) derived
      have sorts : s₁.plan.SortsOrder := by
        rw [same]
        intro n physical order reached chosen isSort
        obtain ⟨⟨physical', chosen', admits⟩, _⟩ := filled n reached
        cases chosen.symm.trans chosen'
        exact admits.isOrder isSort
      obtain ⟨moves, _⟩ := ready.moves_enforceWithin (fun _ impossible => by cases impossible) done
      rw [← same]
      exact ⟨moves.sameOutline ⟨ready, same ▸ assigning.current, sorts⟩, (moves.ready ready).wellFormed⟩
  obtain ⟨outline, has⟩ := wellFormed.exists_outline .refl
  obtain ⟨vs, stored, _⟩ := assigning.current s'.plan.root .refl
  refine ⟨⟨outline, wellFormed.outline?_eq_some_iff.mpr has,
    wellFormed'.outline?_eq_some_iff.mpr (kept.outline outline has)⟩, vs, stored, ?_⟩
  rw [Plan.schema_ok_iff, kept.schema]
  exact Plan.schema_ok_iff.mp stored

/-- Computes schemas, chooses algorithms and enforces layouts. Returns the sessions after each. -/
def implement (s : Session) : Except Failure (Session × Session × Session) := do
  let s ← s.refreshSchemas
  let s' ← assignment.run s
  let s'' ← s'.1.enforceLayouts
  return (s, s'.1, s''.1)

theorem implement_cases {α : Type} {view : Session × Session × Session → α} {seen : α}
    (wellFormed : s.plan.WellFormed) (new : s.context.facts = {})
    (done : s.implement.toOption.map view = some seen) :
    ∃ t s' s'' columns changed changed', s.refreshSchemas = .ok t ∧ t.Accurate columns ∧
      t.plan.SchemasCurrent ∧ assignment.run t = .ok (s', changed) ∧
      s'.enforceLayouts = .ok (s'', changed') ∧ view (t, s', s'') = seen := by
  obtain ⟨_, done, same⟩ := Option.map_eq_some_iff.mp done
  obtain ⟨t, refreshed, done⟩ := bind_ok_iff.mp (toOption_eq_some_iff.mp done)
  obtain ⟨⟨s', changed⟩, assigned, done⟩ := bind_ok_iff.mp done
  obtain ⟨⟨s'', changed'⟩, enforced, done⟩ := bind_ok_iff.mp done
  cases pure_ok_iff.mp done
  obtain ⟨plan, computed, rfl⟩ := refreshSchemas_ok refreshed
  obtain ⟨columns, has⟩ := wellFormed.exists_columns
  exact ⟨_, s', s'', columns, changed, changed', refreshed, .of_refreshed wellFormed has computed new,
    wellFormed.current_refreshed computed, assigned, enforced, same⟩

/-- The first groups of a source, joined with another source. -/
def firstGroups : Session where
  plan := {
    nodes := [
      some (.above .emptySource []),
      some (.above (.scan "S" [1, 2]) [0]),
      some (.above (.nestedSource 4) []),
      some (.above (.aggregate [5] [.call .count [.var 2] []]) [2]),
      some (.above (.groupBy [(3, .var 2), (4, .var 1)] [] [[3]]) [1]),
      some (.above (.order [(.asc, .var 4)] none) [4]),
      some (.above (.order [(.asc, .var 3)] (some 10)) [5]),
      some (.above (.scan "T" [6]) [0]),
      some { Node.above (.join .inner (.call .eq [.var 4, .var 6] [])) [6, 7] with
        hints := [("broadcast-side", "right")] }],
    root := 8 }
  context := { catalog := ⟨[
    { name := "S", columns := [("a", .integer .int64), ("b", .utf8)], key := ["a"] },
    { name := "T", columns := [("c", .integer .int64)] }]⟩ }

theorem firstGroups_wellFormed : firstGroups.plan.WellFormed :=
  .of_regular (.of_nodes ⟨by simp [firstGroups], by simp [firstGroups]⟩ rfl (by decide)) id
    (fun n => if n = 2 ∨ n = 3 then [4] else []) (by decide) rfl

theorem firstGroups_keepsSides : firstGroups.plan.KeepsSides := by
  intro n condition reached isJoin
  have listed := Plan.mem_reachable reached
  rw [show firstGroups.plan.reachable = [8, 6, 5, 4, 1, 0, 3, 2, 7] by decide] at listed
  simp only [List.mem_cons, List.not_mem_nil, or_false] at listed
  rcases listed with rfl | rfl | rfl | rfl | rfl | rfl | rfl | rfl | rfl <;> cases isJoin
  decide

/-- An order is put below the group-by, and the one above it is taken out. -/
theorem enforcement_keeps_outline_firstGroups : ∃ t s' s'' columns changed changed',
    t.Accurate columns ∧ t.plan.SchemasCurrent ∧ t.plan.KeepsSides ∧
    assignment.run t = .ok (s', changed) ∧ s'.enforceLayouts = .ok (s'', changed') ∧
    s'.plan.inputs 4 = [1] ∧ s''.plan.inputs 4 ≠ [1] ∧ 5 ∈ s'.plan.reachable ∧ 5 ∉ s''.plan.reachable ∧
    (∃ outline, s'.plan.outline? = some outline ∧ s''.plan.outline? = some outline) ∧
      ∃ vs, s'.plan.schema s'.plan.root = .ok vs ∧ s''.plan.schema s''.plan.root = .ok vs := by
  have run : (firstGroups.implement.toOption.map fun run =>
      decide (run.2.1.plan.inputs 4 = [1] ∧ run.2.2.plan.inputs 4 ≠ [1] ∧ 5 ∈ run.2.1.plan.reachable ∧
        5 ∉ run.2.2.plan.reachable)) = some true := by
    decide +kernel
  obtain ⟨t, s', s'', columns, changed, changed', refreshed, accurate, current, assigned, enforced,
    seen⟩ := implement_cases firstGroups_wellFormed rfl run
  obtain ⟨before, after, listed, unlisted⟩ := of_decide_eq_true seen
  obtain ⟨plan, computed, rfl⟩ := refreshSchemas_ok refreshed
  have keepsSides := (Plan.refreshSchemas_only computed).regrouped.keepsSides firstGroups_keepsSides
  exact ⟨_, s', s'', columns, changed, changed', accurate, current, keepsSides, assigned, enforced, before,
    after, listed, unlisted, enforcement_keeps_outline accurate current keepsSides assigned enforced⟩

/-- A join that is read twice, once through two group-bys, and asks for its left side to be
    broadcast. -/
def sharedJoin : Session where
  plan := {
    nodes := [
      some (.above .emptySource []),
      some (.above (.scan "A" [1, 3]) [0]),
      some (.above (.select (.call .eq [.var 1, .var 1] [])) [1]),
      some (.above (.scan "B" [2]) [0]),
      some { Node.above (.join .inner (.call .eq [.var 3, .var 2] [])) [2, 3] with
        hints := [("broadcast-side", "left")] },
      some (.above (.nestedSource 7) []),
      some (.above (.aggregate [10] [.call .count [.var 1] []]) [5]),
      some (.above (.groupBy [(4, .var 3)] [(5, .var 1), (6, .var 1)] [[6]]) [4]),
      some (.above (.project [5, 6]) [7]),
      some (.above (.nestedSource 11) []),
      some (.above (.aggregate [11] [.call .count [.var 5] []]) [9]),
      some (.above (.groupBy [(7, .var 5), (8, .var 6)] [] [[10]]) [8]),
      some (.above (.unionAll [⟨7, 1, 9⟩]) [11, 4])],
    root := 12 }
  context := { catalog := ⟨[
    { name := "A", columns := [("a", .integer .int64), ("b", .integer .int64)] },
    { name := "B", columns := [("c", .integer .int64)] }]⟩ }

theorem sharedJoin_wellFormed : sharedJoin.plan.WellFormed :=
  .of_regular (.of_nodes ⟨by simp [sharedJoin], by simp [sharedJoin]⟩ rfl (by decide)) id
    (fun n => if n = 5 ∨ n = 6 then [7] else if n = 9 ∨ n = 10 then [11] else []) (by decide) rfl

/-- The join exchanges its sides after the group-by above it was assigned. Then other facts hold, by which
    enforcement simplifies the group-by. -/
theorem enforcement_regroups_sharedJoin : ∃ t s' s'' columns changed changed',
    t.Accurate columns ∧ t.plan.SchemasCurrent ∧ assignment.run t = .ok (s', changed) ∧
    s'.enforceLayouts = .ok (s'', changed') ∧ s'.plan.outline? ≠ s''.plan.outline? := by
  have run : (sharedJoin.implement.toOption.map fun run =>
      decide ((run.2.1.plan.outline?.bind (·.inputs[0]?)).map (·.operator) ≠
        (run.2.2.plan.outline?.bind (·.inputs[0]?)).map (·.operator))) = some true := by
    decide +kernel
  obtain ⟨t, s', s'', columns, changed, changed', _, accurate, current, assigned, enforced, seen⟩ :=
    implement_cases sharedJoin_wellFormed rfl run
  refine ⟨t, s', s'', columns, changed, changed', accurate, current, assigned, enforced, fun same => ?_⟩
  rw [same] at seen
  exact of_decide_eq_true seen rfl

end Session

end QueryOptimizer
