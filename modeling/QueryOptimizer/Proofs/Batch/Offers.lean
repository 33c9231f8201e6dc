import Mathlib
import QueryOptimizer.Proofs.Batch.Points
import QueryOptimizer.Proofs.Implementation.Choice

/-! # What rules do when they are offered a slot

A rule that reports a change has redrawn the plan or reworked it at the slot. A rule that reports none
may have derived something about the plan. Enforcement is left out here.
-/

namespace QueryOptimizer

variable {r r' : RuleState} {s s' : Session} {hook : Hook} {slot : Slot} {fired : Bool} {id : NodeId}
  {vars : VarSet}

/-- A session after an offer that was not taken: something may have been derived. -/
inductive Session.Learns (s : Session) (slot : Slot) (s' : Session) : Prop where
  | nothing (same : s' = s)
  | types {id : NodeId} {env : TypeEnv} (here : s.plan.nodeAt slot = .ok id)
      (done : s.types id = .ok (s', env))
  | facts {vars : VarSet} (done : s.inlineAt vars slot = .ok (s', false))
  | choice {nodes : List NodeId} (done : s.choosePhysical nodes slot = .ok (s', false))

theorem Session.inlineAt_redrawn (done : s.inlineAt vars slot = .ok (s', fired)) :
    s.plan.Redrawn s'.plan := by
  rcases inlineAt_ok (.refl s) (fun _ _ => s.staysWithFacts_derives.facts) done with
    ⟨_, plan, facts, rfl, regrouped⟩ |
    ⟨_, _, s₁, id, renames, ⟨plan, facts, rfl, regrouped⟩, _, _, rfl⟩
  · exact regrouped.redrawn
  · exact regrouped.redrawn.trans (.setOperator plan id (.rename _ renames))

theorem Session.choosePhysical_redrawn {nodes : List NodeId} (wellFormed : s.plan.WellFormed)
    (holds : s.plan.HoldsReachable slot) (done : s.choosePhysical nodes slot = .ok (s', fired)) :
    s.plan.Redrawn s'.plan := by
  obtain ⟨id, s₁, physical, here, chooses, _, ⟨_, rfl, _⟩ | ⟨_, rfl⟩⟩ := choosePhysical_cases done
  · exact chooses.redrawn wellFormed (holds.reaches here)
  · exact (chooses.redrawn wellFormed (holds.reaches here)).trans
      (.modify s₁.plan id (fun _ => rfl) (.refl _))

/-- Deriving something redraws the plan at most. -/
theorem Session.Learns.redrawn (learns : s.Learns slot s') (wellFormed : s.plan.WellFormed)
    (holds : s.plan.HoldsReachable slot) : s.plan.Redrawn s'.plan := by
  cases learns with
  | nothing same => exact same ▸ .refl _
  | types _ done =>
    obtain ⟨types, rfl⟩ := typesWithin_frame done
    exact .refl _
  | facts done => exact inlineAt_redrawn done
  | choice done => exact choosePhysical_redrawn wellFormed holds done

theorem Session.chooseMode_cases {nodes : List NodeId}
    (done : s.chooseMode nodes slot = .ok (s', fired)) :
    ∃ id mode, s.plan.nodeAt slot = .ok id ∧ s.modeFor nodes id = .ok mode ∧
      (fired = false ∧ s' = s ∧ s.plan.mode id = mode ∨
        fired = true ∧ s' = s.withPlan (s.plan.setMode id mode)) := by
  obtain ⟨id, here, done⟩ := bind_ok_iff.mp done
  obtain ⟨mode, chosen, done⟩ := bind_ok_iff.mp done
  refine ⟨id, mode, here, chosen, ?_⟩
  split at done
  · cases pure_ok_iff.mp done
    exact .inl ⟨rfl, rfl, ‹_›⟩
  · cases pure_ok_iff.mp done
    exact .inr ⟨rfl, rfl⟩

namespace RuleState

section

variable (wellFormed : s.plan.WellFormed) (holds : s.plan.HoldsReachable slot)
  (here : s.plan.nodeAt slot = .ok id) (isMatch : r.rule.pattern.isMatch s.plan id = true)

include wellFormed holds here isMatch

/-- A rule that transforms the plan at a slot changes the plan there. -/
theorem changed_of_transform? {transform : Plan → Slot → Except Failure (Option Plan)} {plan : Plan}
    (isLocal : r.rule.transform? = some transform) (done : transform s.plan slot = .ok (some plan)) :
    Plan.Changed slot s.plan plan := by
  cases rule : r.rule <;> rw [rule] at isLocal isMatch <;> cases isLocal
  · exact Plan.changed_splitSelect wellFormed holds done
  · exact Plan.changed_pushSelect wellFormed holds done
  · exact Plan.changed_mergeSelectIntoJoin wellFormed holds done
  · exact Plan.changed_mergeLimits wellFormed holds done
  · exact Plan.changed_pushLimit wellFormed holds here isMatch done
  · exact Plan.changed_mergeSelects wellFormed holds done
  · exact Plan.changed_mergeAssigns wellFormed holds done
  · exact Plan.changed_dropRedundantProject wellFormed holds done

theorem offer_cases (other : r.rule ≠ .enforceLayouts)
    (offered : r.offer hook slot s = .ok (r', s', fired)) :
    fired = false ∧ s.Learns slot s' ∨ fired = true ∧ Plan.Changed slot s.plan s'.plan := by
  cases isLocal : r.rule.transform? with
  | some transform =>
    obtain ⟨_, ⟨rfl, rfl⟩ | ⟨rfl, plan, done, rfl⟩⟩ := offer_of_transform? isLocal offered
    · exact .inl ⟨rfl, .nothing rfl⟩
    · exact .inr ⟨rfl, changed_of_transform? wellFormed holds here isMatch isLocal done⟩
  | none =>
    cases hook with
    | before =>
      replace offered : r.before slot s = .ok (r', s', fired) := offered
      unfold before at offered
      split at offered
      case h_9 =>
        obtain ⟨⟨s₁, fired₁⟩, done, offered⟩ := bind_ok_iff.mp offered
        cases pure_ok_iff.mp offered
        cases fired with
        | false => exact .inl ⟨rfl, .facts done⟩
        | true => exact .inr ⟨rfl, .redrawn (s.inlineAt_redrawn done)⟩
      case h_10 =>
        have dropped : ∀ {r₁ : RuleState},
            (do return r₁.outcome s (← s.plan.dropUnusedAssigns r₁.vars slot)) =
              Except.ok (r', s', fired) →
            fired = false ∧ s.Learns slot s' ∨ fired = true ∧ Plan.Changed slot s.plan s'.plan := by
          intro r₁ offered
          obtain ⟨found, done, offered⟩ := bind_ok_iff.mp offered
          cases found with
          | none =>
            cases pure_ok_iff.mp offered
            exact .inl ⟨rfl, .nothing rfl⟩
          | some plan =>
            cases pure_ok_iff.mp offered
            exact .inr ⟨rfl, Plan.changed_dropUnusedAssigns wellFormed holds done⟩
        dsimp only at offered
        split at offered
        · obtain ⟨needed, _, offered⟩ := bind_ok_iff.mp offered
          obtain ⟨r₁, _, offered⟩ := bind_ok_iff.mp offered
          exact dropped offered
        · obtain ⟨r₁, _, offered⟩ := bind_ok_iff.mp offered
          exact dropped offered
      case h_13 rule => exact absurd rule other
      case h_11 | h_12 | h_14 =>
        cases pure_ok_iff.mp offered
        exact .inl ⟨rfl, .nothing rfl⟩
      all_goals
        rename_i rule
        rw [rule] at isLocal
        cases isLocal
    | after =>
      replace offered : r.after slot s = .ok (r', s', fired) := offered
      unfold after at offered
      split at offered
      · obtain ⟨n, here, offered⟩ := bind_ok_iff.mp offered
        obtain ⟨⟨s₁, env⟩, done, offered⟩ := bind_ok_iff.mp offered
        cases pure_ok_iff.mp offered
        exact .inl ⟨rfl, .types here done⟩
      · obtain ⟨⟨s₁, fired₁⟩, done, offered⟩ := bind_ok_iff.mp offered
        cases pure_ok_iff.mp offered
        obtain ⟨n, mode, _, _, ⟨rfl, rfl, _⟩ | ⟨rfl, rfl⟩⟩ := Session.chooseMode_cases done
        · exact .inl ⟨rfl, .nothing rfl⟩
        · exact .inr ⟨rfl, .redrawn (.modify s.plan n (fun _ => rfl) (.refl _))⟩
      · obtain ⟨⟨s₁, fired₁⟩, done, offered⟩ := bind_ok_iff.mp offered
        cases pure_ok_iff.mp offered
        cases fired with
        | false => exact .inl ⟨rfl, .choice done⟩
        | true => exact .inr ⟨rfl, .redrawn (s.choosePhysical_redrawn wellFormed holds done)⟩
      · cases pure_ok_iff.mp offered
        exact .inl ⟨rfl, .nothing rfl⟩

end

end RuleState

end QueryOptimizer
