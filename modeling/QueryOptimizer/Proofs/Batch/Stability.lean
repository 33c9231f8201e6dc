import Mathlib
import QueryOptimizer.Proofs.Batch.Fixpoint
import QueryOptimizer.Proofs.Batch.Points

/-! # Batches that are run again

A batch ends with a sweep that changes nothing. If its rules keep nothing in mind, a second run starts
with the same sweep, unless nodes were collected in between: rules look at the parents of a node, and
those that cannot be reached count until they are collected.
-/

namespace QueryOptimizer

namespace Sweep

variable {w w' w₁ : Sweep} {hook : Hook} {slot : Slot} {rules : List RuleState} {r : RuleState}
  {fullDepth : Bool} {fuel : Nat}

/-- A part of a sweep that keeps the configuration, and the session if it reports no change. -/
def Rests (w w' : Sweep) : Prop :=
  w'.session.context.config = w.session.context.config ∧
    (w'.changed = false → w.changed = false ∧ w'.session = w.session)

theorem Rests.trans (first : w.Rests w₁) (second : w₁.Rests w') : w.Rests w' := by
  refine ⟨second.1.trans first.1, fun calm => ?_⟩
  obtain ⟨calm, same⟩ := second.2 calm
  exact ⟨(first.2 calm).1, same.trans (first.2 calm).2⟩

theorem rests_applyRule (isLocal : r.rule.transform?.isSome = true)
    (done : applyRule hook slot w r = .ok w') : w'.rules = w.rules ++ [r] ∧ w.Rests w' := by
  obtain ⟨transform, isLocal⟩ := Option.isSome_iff_exists.mp isLocal
  obtain ⟨_, _, ⟨_, rfl⟩ | ⟨_, r', s, fired, offered, outcome⟩⟩ := applyRule_cases done
  · exact ⟨rfl, rfl, fun calm => ⟨calm, rfl⟩⟩
  obtain ⟨rfl, unfired⟩ := RuleState.offer_of_transform? isLocal offered
  rcases outcome with ⟨rfl, rfl⟩ | ⟨rfl, _, _, rfl⟩
  · obtain ⟨_, rfl⟩ | ⟨impossible, _⟩ := unfired
    · exact ⟨rfl, rfl, fun calm => ⟨calm, rfl⟩⟩
    · cases impossible
  · obtain ⟨impossible, _⟩ | ⟨_, _, _, rfl⟩ := unfired
    · cases impossible
    · exact ⟨rfl, rfl, fun impossible => by cases impossible⟩

theorem rests_rules (isLocal : ∀ r ∈ rules, r.rule.transform?.isSome = true)
    (done : rules.foldlM (applyRule hook slot) w = .ok w') :
    w'.rules = w.rules ++ rules ∧ w.Rests w' := by
  induction rules generalizing w with
  | nil =>
    cases foldlM_nil_ok_iff.mp done
    exact ⟨(List.append_nil _).symm, rfl, fun calm => ⟨calm, rfl⟩⟩
  | cons r rules ih =>
    obtain ⟨w₁, first, done⟩ := foldlM_cons_ok_iff.mp done
    obtain ⟨same, first⟩ := rests_applyRule (isLocal r List.mem_cons_self) first
    obtain ⟨same', rest⟩ := ih (fun r member => isLocal r (List.mem_cons_of_mem _ member)) done
    exact ⟨by rw [same', same, List.append_assoc, List.singleton_append], first.trans rest⟩

theorem rests_sweepWithin (isLocal : ∀ r ∈ w.rules, r.rule.transform?.isSome = true)
    (done : sweepWithin fullDepth fuel w slot = .ok w') : w'.rules = w.rules ∧ w.Rests w' := by
  induction fuel generalizing w w' slot with
  | zero => cases done
  | succ fuel ih =>
    obtain ⟨w₁, id, w₂, before, _, swept, after⟩ := sweepWithin_cases done
    obtain ⟨same, first⟩ : w₁.rules = w.rules ∧ w.Rests w₁ := rests_rules isLocal before
    obtain ⟨same, below⟩ : w₂.rules = w.rules ∧ w.Rests w₂ := by
      rcases swept with ⟨_, rfl⟩ | ⟨_, swept⟩
      · exact ⟨same, first⟩
      · refine foldlM_keeps (b := { w₁ with visited := id :: w₁.visited })
          (fun w₂ => w₂.rules = w.rules ∧ w.Rests w₂) (fun _ _ _ _ kept step => ?_) ⟨same, first⟩ swept
        obtain ⟨same', rest⟩ := ih (kept.1 ▸ isLocal) step
        exact ⟨same'.trans kept.1, kept.2.trans rest⟩
    obtain ⟨same', last⟩ := rests_rules (same ▸ isLocal) after
    exact ⟨same'.trans same, below.trans last⟩

end Sweep

namespace Batch

variable {batch : Batch} {s t : Session} {changed changed' : Bool}

/-- A sweep over the plan that a batch ends with changes nothing. -/
theorem stable_sweepUntilStable {sweeps : Nat} {rules : List RuleState}
    (isLocal : ∀ r ∈ rules, r.rule.transform?.isSome = true)
    (done : batch.sweepUntilStable sweeps changed rules s = .ok (t, changed')) :
    t.context.config = s.context.config ∧
      ∃ w, batch.sweep rules t = .ok w ∧ w.session = t ∧ w.changed = false := by
  induction sweeps generalizing changed s with
  | zero => cases done
  | succ sweeps ih =>
    obtain ⟨w, swept, done⟩ := bind_ok_iff.mp done
    obtain ⟨same, rests⟩ := Sweep.rests_sweepWithin isLocal swept
    cases changes : w.changed with
    | true =>
      rw [if_pos changes, same] at done
      obtain ⟨config, rest⟩ := ih done
      exact ⟨config.trans rests.1, rest⟩
    | false =>
      rw [if_neg (Bool.eq_false_iff.mp changes)] at done
      cases pure_ok_iff.mp done
      have same : w.session = s := (rests.2 changes).2
      exact ⟨rests.1, w, same.symm ▸ swept, rfl, changes⟩

/-- A batch whose rules keep nothing in mind is stable if its sweeps leave no node that cannot be reached:
    a second run reports no change and returns the session as it is. -/
theorem second_run_changes_nothing (untilStable : batch.controller.untilStable = true)
    (isLocal : ∀ rule ∈ batch.rules, rule.transform?.isSome = true)
    (swept : batch.sweepUntilStable s.context.config.maxSweeps false
      (batch.rules.map fun rule => { rule := rule }) s = .ok (t, changed))
    (clean : t.plan.garbage = []) :
    batch.run s = .ok (t, changed) ∧ batch.run t = .ok (t, false) := by
  have collected : collectGarbage t = t := by
    unfold collectGarbage Plan.collectGarbage
    rw [clean]
    rfl
  have run : ∀ {s changed}, batch.sweepUntilStable s.context.config.maxSweeps false
      (batch.rules.map fun rule => { rule := rule }) s = .ok (t, changed) →
      batch.run s = .ok (t, changed) := by
    intro s changed swept
    unfold Batch.run
    dsimp only
    rw [if_pos untilStable, swept]
    exact congrArg (fun t => Except.ok (t, changed)) collected
  refine ⟨run swept, run ?_⟩
  obtain ⟨config, w, again, same, calm⟩ := stable_sweepUntilStable (fun r member => by
    obtain ⟨rule, isRule, rfl⟩ := List.mem_map.mp member
    exact isLocal rule isRule) swept
  rw [config]
  cases sweeps : s.context.config.maxSweeps with
  | zero => rw [sweeps] at swept; cases swept
  | succ sweeps =>
    refine bind_ok_iff.mpr ⟨w, again, ?_⟩
    rw [if_neg (Bool.eq_false_iff.mp calm), same]
    rfl

/-- A select is pushed through a join, for one of its two consumers. -/
theorem second_run_changes_nothing_shared : ∃ t,
    (fixpoint "predicate-pushdown" false [.pushSelect]).run sharedSelect = .ok (t, true) ∧
      (fixpoint "predicate-pushdown" false [.pushSelect]).run t = .ok (t, false) := by
  have swept : (((fixpoint "predicate-pushdown" false [.pushSelect]).sweepUntilStable
      sharedSelect.context.config.maxSweeps false [{ rule := .pushSelect }] sharedSelect).toOption.map
        fun result => (result.2, result.1.plan.garbage)) = some (true, []) := by decide +kernel
  obtain ⟨⟨t, changed⟩, found, result⟩ := Option.map_eq_some_iff.mp swept
  obtain ⟨rfl, clean⟩ := Prod.mk.inj result
  exact ⟨t, second_run_changes_nothing rfl (by decide) (toOption_eq_some_iff.mp found) clean⟩

/-- Of two selects over a join, the first run moves the lower one to a side of the join. It cannot be
    reached then, but shares the join with the upper one, which the second run moves. -/
theorem second_run_moves_upper_select :
    ((fixpoint "predicate-pushdown" false [.pushSelect]).run
        (sharedSelect.withPlan { nodes := sharedSelect.plan.nodes.take 6, root := 5 })).toOption.bind
      (fun first => ((fixpoint "predicate-pushdown" false [.pushSelect]).run first.1).toOption.map
        fun second => (first.2, second.2)) = some (true, true) := by
  decide +kernel

end Batch

end QueryOptimizer
