import Mathlib
import QueryOptimizer.Proofs.Batch.Settling
import QueryOptimizer.Proofs.Plan.Load

/-! # Potentials of plans

A rule that transforms the plan at a slot and keeps nothing in mind can fire as often as a potential
of the plan allows. Schemas have no part in potentials.
-/

namespace QueryOptimizer

/-- What a rule that keeps nothing in mind does to the plan. -/
def Rule.transform? : Rule → Option (Plan → Slot → Except Failure (Option Plan))
  | .splitSelect => some Plan.splitSelect
  | .pushSelect => some Plan.pushSelect
  | .mergeSelectIntoJoin => some Plan.mergeSelectIntoJoin
  | .mergeSelects => some Plan.mergeSelects
  | .mergeLimits => some Plan.mergeLimits
  | .pushLimit => some Plan.pushLimit
  | .mergeAssigns => some Plan.mergeAssigns
  | .dropRedundantProject => some Plan.dropRedundantProject
  | _ => none

namespace RuleState

variable {r r' : RuleState} {s s' : Session} {hook : Hook} {slot : Slot} {fired : Bool}
  {transform : Plan → Slot → Except Failure (Option Plan)}

section

variable (isLocal : r.rule.transform? = some transform)

include isLocal

theorem before_of_transform? : r.before slot s = (do return r.outcome s (← transform s.plan slot)) := by
  unfold before
  cases rule : r.rule <;> rw [rule] at isLocal <;> cases isLocal <;> rfl

theorem after_of_transform? : r.after slot s = .ok (r, s, false) := by
  unfold after
  cases rule : r.rule <;> rw [rule] at isLocal <;> cases isLocal <;> rfl

theorem settles_transform? (plan : Plan) : Settles (transform plan slot) := by
  cases rule : r.rule <;> rw [rule] at isLocal <;> cases isLocal
  · exact plan.settles_splitSelect slot
  · exact plan.settles_pushSelect slot
  · exact plan.settles_mergeSelectIntoJoin slot
  · exact plan.settles_mergeLimits slot
  · exact plan.settles_pushLimit slot
  · exact plan.settles_mergeSelects slot
  · exact plan.settles_mergeAssigns slot
  · exact plan.settles_dropRedundantProject slot

/-- What such a rule does when it is offered a slot: nothing, or it transforms the plan. -/
theorem offer_of_transform? (offered : r.offer hook slot s = .ok (r', s', fired)) :
    r' = r ∧ (fired = false ∧ s' = s ∨
      fired = true ∧ ∃ plan, transform s.plan slot = .ok (some plan) ∧ s' = s.withPlan plan) := by
  cases hook with
  | before =>
    replace offered : r.before slot s = .ok (r', s', fired) := offered
    rw [before_of_transform? isLocal] at offered
    obtain ⟨found, done, offered⟩ := bind_ok_iff.mp offered
    cases found with
    | none =>
      cases pure_ok_iff.mp offered
      exact ⟨rfl, .inl ⟨rfl, rfl⟩⟩
    | some plan =>
      cases pure_ok_iff.mp offered
      exact ⟨rfl, .inr ⟨rfl, plan, done, rfl⟩⟩
  | after =>
    replace offered : r.after slot s = .ok (r', s', fired) := offered
    rw [after_of_transform? isLocal] at offered
    cases offered
    exact ⟨rfl, .inl ⟨rfl, rfl⟩⟩

theorem settles_offer : Settles (r.offer hook slot s) := by
  cases hook with
  | before =>
    change Settles (r.before slot s)
    rw [before_of_transform? isLocal]
    exact settles_bind (settles_transform? isLocal s.plan) fun _ => settles_pure _
  | after =>
    change Settles (r.after slot s)
    rw [after_of_transform? isLocal]
    exact settles_ok _

end

end RuleState

/-- A potential of plans that every firing of some rules makes smaller. -/
structure Potential (rules : List Rule) (Bound : Plan → Nat → Prop) : Prop where
  isLocal : ∀ rule ∈ rules, rule.transform?.isSome = true
  only : ∀ {plan plan' k}, plan.OnlySchemas plan' → Bound plan k → Bound plan' k
  lowers : ∀ {rule transform slot plan plan' id k}, rule ∈ rules →
    rule.transform? = some transform →
    plan.nodeAt slot = .ok id → rule.pattern.isMatch plan id = true → Bound plan k →
    transform plan slot = .ok (some plan') → ∃ k' < k, Bound plan' k'

/-- A potential of plans bounds the firings of a batch. -/
theorem Potential.falls {rules : List Rule} {Bound : Plan → Nat → Prop}
    (potential : Potential rules Bound) :
    Falls fun states s k => (∀ r ∈ states, r.rule ∈ rules) ∧ Bound s.plan k where
  settles hook slot bound := by
    obtain ⟨transform, isLocal⟩ := Option.isSome_iff_exists.mp
      (potential.isLocal _ (bound.1 _ (List.mem_append_right _ List.mem_cons_self)))
    exact RuleState.settles_offer isLocal
  keeps _ _ bound offered := by
    obtain ⟨transform, isLocal⟩ := Option.isSome_iff_exists.mp
      (potential.isLocal _ (bound.1 _ (List.mem_append_right _ List.mem_cons_self)))
    obtain ⟨rfl, ⟨_, rfl⟩ | ⟨impossible, _⟩⟩ := RuleState.offer_of_transform? isLocal offered
    · exact bound
    · cases impossible
  lowers here isMatch bound offered refreshed := by
    have member := bound.1 _ (List.mem_append_right _ List.mem_cons_self)
    obtain ⟨transform, isLocal⟩ := Option.isSome_iff_exists.mp (potential.isLocal _ member)
    obtain ⟨rfl, ⟨impossible, _⟩ | ⟨_, plan, done, rfl⟩⟩ :=
      RuleState.offer_of_transform? isLocal offered
    · cases impossible
    · obtain ⟨k', less, bound'⟩ :=
        potential.lowers member isLocal here isMatch bound.2 done
      obtain ⟨plan', recomputed, refreshed⟩ := bind_ok_iff.mp refreshed
      cases pure_ok_iff.mp refreshed
      exact ⟨k', less, bound.1, potential.only (Plan.refreshSchemas_only recomputed) bound'⟩

theorem Potential.settles_run {rules : List Rule} {Bound : Plan → Nat → Prop} {batch : Batch}
    (potential : Potential rules Bound) (among : ∀ rule ∈ batch.rules, rule ∈ rules)
    (untilStable : batch.controller.untilStable = true) {s : Session} {k : Nat}
    (enough : k < s.context.config.maxSweeps) (bound : Bound s.plan k) : Settles (batch.run s) := by
  refine Batch.settles_run potential.falls untilStable enough ⟨fun r member => ?_, bound⟩
  obtain ⟨rule, isRule, rfl⟩ := List.mem_map.mp member
  exact among rule isRule

end QueryOptimizer
