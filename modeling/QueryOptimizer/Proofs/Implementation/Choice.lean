import Mathlib
import QueryOptimizer.Implementation.Enforcement
import QueryOptimizer.Implementation.Mode
import QueryOptimizer.Proofs.Derivation.Frame

/-! # Choosing physical operators redraws the plan

The choice derives facts and sizes. It may exchange the sides of a join, and then puts the physical
operator into the node.
-/

namespace QueryOptimizer

/-- The physical operators that implement an operator. -/
def Operator.Admits : Operator → Physical → Prop
  | emptySource, p => p = .emptySource
  | nestedSource owner, p => p = .nestedSource owner
  | scan source vars, p => p = .scan source vars
  | select _, p => p = .streamSelect
  | assign .., p => p = .assign
  | project vars, p => p = .streamProject vars
  | join kind _, p => p = .nestedLoopJoin kind ∨ ∃ join : HashJoin, join.kind = kind ∧
      (p = .hybridHashJoin join ∨ p = .inMemoryHashJoin join)
  | groupBy .., p => ∃ keys decor, p = .preclusteredGroupBy keys decor ∨ p = .externalGroupBy keys decor
  | aggregate .., p => p = .aggregate
  | runningAggregate .., p => p = .runningAggregate
  | distinct vars, p => p = .preSortedDistinct vars
  | order columns top, p => ∃ order, (Operator.order columns top).orderColumns? = some order ∧
      p.sortOrder? = some order
  | limit .., p => p = .streamLimit
  | unnest .., p => p = .unnest
  | subplan _, p => p = .subplan
  | unionAll _, p => p = .unionAll
  | exchange, p => p.isExchange = true
  | replicate, p => p = .replicate
  | write target _, p => p = .sinkWrite target
  | insertDelete _ dataset _ _, p => ∃ keys, p = .insertDelete dataset keys
  | script command _ outputs, p => p = .script command outputs
  | sink, p => p = .sink

/-- Whether a hint asks for the left side of a join to be broadcast. -/
def Plan.BroadcastsLeft (plan : Plan) (id : NodeId) (condition : Expr) : Prop :=
  (plan.node id).hints.get? "broadcast-side" = some "left" ∨
    ∃ conjunct ∈ condition.conjuncts, conjunct.hint? "broadcast" = some "left"

instance (plan : Plan) (id : NodeId) (condition : Expr) : Decidable (plan.BroadcastsLeft id condition) :=
  inferInstanceAs (Decidable ((plan.node id).hints.get? "broadcast-side" = some "left" ∨
    ∃ conjunct ∈ condition.conjuncts, conjunct.hint? "broadcast" = some "left"))

theorem JoinSide.eq_left {hint : String} (side : ofHint? hint = some .left) : hint = "left" := by
  unfold ofHint? at side
  split at side
  · rfl
  · cases side
  · cases side

theorem JoinKeys.exists_hint {left right : List Var} {conjuncts : List Expr} {keys keys' : JoinKeys}
    (found : conjuncts.foldlM (addConjunct? left right) keys = some keys')
    (side : keys'.broadcast = some .left) : keys.broadcast = some .left ∨
      ∃ conjunct ∈ conjuncts, conjunct.hint? "broadcast" = some "left" := by
  induction conjuncts generalizing keys with
  | nil =>
    cases found
    exact .inl side
  | cons conjunct conjuncts ih =>
    rw [List.foldlM_cons] at found
    obtain ⟨next, first, found⟩ := Option.bind_eq_some_iff.mp found
    rcases ih found with asked | ⟨other, member, hint⟩
    · obtain ⟨_, _, first⟩ := Option.bind_eq_some_iff.mp first
      obtain ⟨_, _, first⟩ := Option.bind_eq_some_iff.mp first
      cases first
      rcases Option.or_eq_some_iff.mp asked with here | ⟨_, before⟩
      · obtain ⟨hint, given, isLeft⟩ := Option.bind_eq_some_iff.mp here
        exact .inr ⟨conjunct, List.mem_cons_self, JoinSide.eq_left isLeft ▸ given⟩
      · exact .inl before
    · exact .inr ⟨other, List.mem_cons_of_mem _ member, hint⟩

namespace Session

variable {s s' : Session} {id : NodeId} {physical : Physical}

/-- The left side of a join is only broadcast on request. -/
theorem broadcastsLeft_of_keys {condition : Expr} {left right : List Var} {keys : JoinKeys}
    (found : JoinKeys.ofCondition? condition left right = some keys)
    (asked : keys.broadcast.or (((s.plan.node id).hints.get? "broadcast-side").bind JoinSide.ofHint?) =
      some .left) : s.plan.BroadcastsLeft id condition := by
  rcases Option.or_eq_some_iff.mp asked with side | ⟨_, hinted⟩
  · unfold JoinKeys.ofCondition? at found
    split at found
    · cases found
    · rcases JoinKeys.exists_hint found side with impossible | asked
      · cases impossible
      · exact .inr asked
  · obtain ⟨hint, given, isLeft⟩ := Option.bind_eq_some_iff.mp hinted
    exact .inl (JoinSide.eq_left isLeft ▸ given)

/-- The session after the algorithm of a node was chosen: the sides of a join may have changed places,
    and the size of an input may have been estimated. -/
def Picks (s : Session) (id : NodeId) (s' : Session) : Prop :=
  ∃ plan, (plan = s.plan ∨ s.plan.swapInputs id 0 1 = .ok plan ∧
      ∃ condition, s.plan.operator id = .join .inner condition ∧ s.plan.BroadcastsLeft id condition) ∧
    (s' = s.withPlan plan ∨
      ∃ input frames, input ∈ plan.inputs id ∧ (s.withPlan plan).frames? input = .ok (s', frames))

/-- The session after a physical operator was chosen for a node. The facts of a group-by are derived
    first. -/
def Chooses (s : Session) (id : NodeId) (s' : Session) : Prop :=
  ∃ s₁, (s₁ = s ∧ (∀ keys decor nested, s.plan.operator id ≠ .groupBy keys decor nested) ∨
    s.ensureFacts id = .ok s₁) ∧ s₁.Picks id s'

theorem Picks.refl (s : Session) (id : NodeId) : s.Picks id s := ⟨s.plan, .inl rfl, .inl rfl⟩

theorem operator_swapInputs {plan plan' : Plan} {left right : Nat} {n : NodeId}
    (done : plan.swapInputs id left right = .ok plan') : plan'.operator n = plan.operator n := by
  obtain ⟨_, _, done⟩ := bind_ok_iff.mp done
  obtain ⟨_, _, done⟩ := bind_ok_iff.mp done
  cases pure_ok_iff.mp done
  refine (Plan.operator_modify ?_).trans (Plan.operator_modify ?_) <;> exact fun _ => rfl

theorem chooseJoin_picks (done : s.chooseJoin id = .ok (s', physical)) :
    s.Picks id s' ∧ (s'.plan.operator id).Admits physical := by
  unfold chooseJoin at done
  split at done
  · rename_i kind condition operator
    obtain ⟨left, _, done⟩ := bind_ok_iff.mp done
    obtain ⟨right, _, done⟩ := bind_ok_iff.mp done
    obtain ⟨leftSchema, _, done⟩ := bind_ok_iff.mp done
    obtain ⟨rightSchema, _, done⟩ := bind_ok_iff.mp done
    split at done
    · cases pure_ok_iff.mp done
      refine ⟨.refl s id, ?_⟩
      rw [operator]
      exact Or.inl rfl
    · rename_i keys found
      dsimp only at done
      have finish : ∀ {plan : Plan} {join : HashJoin}, plan.operator id = .join kind condition →
          join.kind = kind → (do
          let estimated ← (s.withPlan plan).frames? (← plan.input id 1)
          if (estimated.2.map estimated.1.context.config.memory.fitsJoin).getD false then
            return (estimated.1, .inMemoryHashJoin join)
          else return (estimated.1, .hybridHashJoin join)) = Except.ok (s', physical) →
          (∃ input frames, input ∈ plan.inputs id ∧ (s.withPlan plan).frames? input = .ok (s', frames)) ∧
            (s'.plan.operator id).Admits physical := by
        intro plan join operator sameKind done
        obtain ⟨input, found, done⟩ := bind_ok_iff.mp done
        obtain ⟨⟨s₁, frames⟩, estimated, done⟩ := bind_ok_iff.mp done
        have isInput := List.mem_of_getElem? (Plan.input_ok_iff.mp found)
        obtain ⟨sizes, rfl⟩ := frames?_frame estimated
        have operator' : ((s.withPlan plan).withSizes sizes).plan.operator id =
            .join kind condition := operator
        dsimp only at done
        split at done <;> cases pure_ok_iff.mp done <;>
          refine ⟨⟨input, frames, isInput, estimated⟩, ?_⟩ <;> rw [operator']
        · exact Or.inr ⟨join, sameKind, .inr rfl⟩
        · exact Or.inr ⟨join, sameKind, .inl rfl⟩
      split at done
      · obtain ⟨_, same, done⟩ := bind_ok_iff.mp done
        cases pure_ok_iff.mp same
        obtain ⟨estimated, admits⟩ := finish operator rfl done
        exact ⟨⟨s.plan, .inl rfl, .inr estimated⟩, admits⟩
      · obtain ⟨plan, swapped, done⟩ := bind_ok_iff.mp done
        obtain ⟨_, same, done⟩ := bind_ok_iff.mp done
        cases pure_ok_iff.mp same
        obtain ⟨estimated, admits⟩ := finish ((operator_swapInputs swapped).trans operator) rfl done
        exact ⟨⟨plan, .inr ⟨swapped, condition, operator, broadcastsLeft_of_keys found ‹_›⟩,
          .inr estimated⟩, admits⟩
      · obtain ⟨_, same, done⟩ := bind_ok_iff.mp done
        cases pure_ok_iff.mp same
        obtain ⟨estimated, admits⟩ := finish operator rfl done
        exact ⟨⟨s.plan, .inl rfl, .inr estimated⟩, admits⟩
  · cases done

theorem chooseSort_cases {order : List OrderColumn} {isNested : Bool}
    (done : s.chooseSort id order isNested = .ok (s', physical)) :
    (∃ frames, s.frames? id = .ok (s', frames)) ∧ physical.sortOrder? = some order := by
  obtain ⟨⟨s₁, frames⟩, estimated, done⟩ := bind_ok_iff.mp done
  dsimp only at done
  split at done <;> cases pure_ok_iff.mp done <;> exact ⟨⟨frames, estimated⟩, rfl⟩

theorem physicalFor_chooses {isNested : Bool}
    (done : s.physicalFor id isNested = .ok (s', physical)) :
    s.Chooses id s' ∧ (s'.plan.operator id).Admits physical := by
  unfold physicalFor at done
  dsimp only at done
  split at done <;> obtain ⟨s₁, first, done⟩ := bind_ok_iff.mp done
  on_goal 1 =>
    have derived : s₁ = s ∧ (∀ keys decor nested, s.plan.operator id ≠ .groupBy keys decor nested) ∨
      s.ensureFacts id = .ok s₁ := .inr first
  on_goal 2 =>
    have derived : s₁ = s ∧ (∀ keys decor nested, s.plan.operator id ≠ .groupBy keys decor nested) ∨
      s.ensureFacts id = .ok s₁ := .inl ⟨(pure_ok_iff.mp first).symm, ‹_›⟩
  all_goals
    clear first
    refine (fun chosen => ⟨⟨s₁, derived, chosen.1⟩, chosen.2⟩ :
      s₁.Picks id s' ∧ (s'.plan.operator id).Admits physical → _) ?_
    clear derived
    split at done
    case h_1 => exact chooseJoin_picks done
    case h_16 =>
      rename_i keys decor nested operator
      obtain ⟨keys', _, done⟩ := bind_ok_iff.mp done
      obtain ⟨decor', _, done⟩ := bind_ok_iff.mp done
      split at done <;> cases pure_ok_iff.mp done <;> refine ⟨.refl _ id, ?_⟩ <;> rw [operator]
      · exact ⟨keys', decor', .inr rfl⟩
      · exact ⟨keys', decor', .inl rfl⟩
    case h_18 =>
      rename_i columns top operator
      split at done
      · rename_i order asColumns
        obtain ⟨input, found, done⟩ := bind_ok_iff.mp done
        have isInput := List.mem_of_getElem? (Plan.input_ok_iff.mp found)
        obtain ⟨⟨frames, estimated⟩, sorts⟩ := chooseSort_cases done
        obtain ⟨sizes, rfl⟩ := frames?_frame estimated
        refine ⟨⟨s₁.plan, .inl rfl, .inr ⟨input, frames, isInput, estimated⟩⟩, ?_⟩
        have operator' : (s₁.withSizes sizes).plan.operator id = .order columns top := operator
        rw [operator']
        exact ⟨order, asColumns, sorts⟩
      · cases done
    case h_21 =>
      rename_i change dataset payload keys operator
      obtain ⟨keys', _, done⟩ := bind_ok_iff.mp done
      cases pure_ok_iff.mp done
      refine ⟨.refl _ id, ?_⟩
      rw [operator]
      exact ⟨keys', rfl⟩
    all_goals
      rename_i operator
      cases pure_ok_iff.mp done
      refine ⟨.refl _ id, ?_⟩
      rw [operator]
      rfl

theorem choosePhysical_cases {nested : List NodeId} {slot : Slot} {fired : Bool}
    (done : s.choosePhysical nested slot = .ok (s', fired)) :
    ∃ id s₁ physical, s.plan.nodeAt slot = .ok id ∧ s.Chooses id s₁ ∧
      (s₁.plan.operator id).Admits physical ∧
      (fired = false ∧ s' = s₁ ∧ (s₁.plan.node id).physical = some physical ∧
          s₁.plan.inputs id = s.plan.inputs id ∨
        fired = true ∧ s' = s₁.withPlan (s₁.plan.setPhysical id physical)) := by
  obtain ⟨id, here, done⟩ := bind_ok_iff.mp done
  obtain ⟨⟨s₁, physical⟩, chosen, done⟩ := bind_ok_iff.mp done
  obtain ⟨chooses, admits⟩ := physicalFor_chooses chosen
  refine ⟨id, s₁, physical, here, chooses, admits, ?_⟩
  dsimp only at done
  split at done
  · rename_i unchanged
    cases pure_ok_iff.mp done
    simp only [Bool.and_eq_true, decide_eq_true_eq] at unchanged
    exact .inl ⟨rfl, rfl, unchanged⟩
  · cases pure_ok_iff.mp done
    exact .inr ⟨rfl, rfl⟩

theorem plan_of_estimated {plan : Plan} (later : s' = s.withPlan plan ∨
    ∃ input frames, input ∈ plan.inputs id ∧ (s.withPlan plan).frames? input = .ok (s', frames)) :
    s'.plan = plan := by
  rcases later with rfl | ⟨input, frames, _, estimated⟩
  · rfl
  · obtain ⟨sizes, rfl⟩ := frames?_frame estimated
    rfl

/-- The sides of a join change places, and nothing else does. -/
theorem Picks.redrawn (picks : s.Picks id s') (wellFormed : s.plan.WellFormed)
    (reached : s.plan.Reaches id) : s.plan.Redrawn s'.plan := by
  obtain ⟨plan, swapped, later⟩ := picks
  rw [plan_of_estimated later]
  rcases swapped with rfl | ⟨swapped, condition, operator, _⟩
  · exact .refl _
  · obtain ⟨a, b, sides⟩ := wellFormed.inputs_pair reached (by rw [operator]; rfl)
    exact (Plan.Redrawn.swapInputs wellFormed reached sides swapped).1

theorem Chooses.redrawn (chooses : s.Chooses id s') (wellFormed : s.plan.WellFormed)
    (reached : s.plan.Reaches id) : s.plan.Redrawn s'.plan := by
  obtain ⟨s₁, ⟨rfl, _⟩ | derived, picks⟩ := chooses
  · exact picks.redrawn wellFormed reached
  · obtain ⟨plan₁, facts, rfl, regrouped⟩ := ensureFacts_derives derived
    have redrawn := regrouped.redrawn
    exact redrawn.trans (picks.redrawn (redrawn.wellFormed wellFormed) (redrawn.reaches_iff.mpr reached))

end Session

end QueryOptimizer
