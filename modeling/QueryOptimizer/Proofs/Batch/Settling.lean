import Mathlib
import QueryOptimizer.Proofs.Batch.Failures
import QueryOptimizer.Proofs.Outcome

/-! # Batches that come to rest

A batch comes to rest if there is a bound on how often its rules can fire: a number that belongs to
the rules and the session at hand, does not grow where no rule fires, and gets smaller where one
does. Then every sweep that changes something makes the number smaller, and a batch that may sweep
more often than the number says does not run out of sweeps.
-/

namespace QueryOptimizer

/-- A bound on how often rules can fire, which falls with every firing. -/
structure Falls (Bound : List RuleState → Session → Nat → Prop) : Prop where
  settles : ∀ {first r rest s k} hook slot, Bound (first ++ r :: rest) s k →
    Settles (r.offer hook slot s)
  keeps : ∀ {hook slot first r rest s k id r' s'},
    s.plan.nodeAt slot = .ok id → r.rule.pattern.isMatch s.plan id = true →
    Bound (first ++ r :: rest) s k → r.offer hook slot s = .ok (r', s', false) →
    Bound (first ++ r' :: rest) s' k
  lowers : ∀ {hook slot first r rest s k id r' s' s''},
    s.plan.nodeAt slot = .ok id → r.rule.pattern.isMatch s.plan id = true →
    Bound (first ++ r :: rest) s k → r.offer hook slot s = .ok (r', s', true) →
    s'.refreshSchemas = .ok s'' →
    ∃ k' < k, Bound (first ++ r' :: rest) (s''.mapContext (·.invalidate)) k'

namespace Sweep

variable {fullDepth : Bool} {Bound : List RuleState → Session → Nat → Prop} {hook : Hook}
  {slot : Slot} {w w' : Sweep} {rules rest rest' : List RuleState} {k : Nat}

/-- What a part of a sweep does to a bound: it stays if nothing changes, and gets smaller
    otherwise. The rules in `rest` still wait for their turn. -/
def Advances (Bound : List RuleState → Session → Nat → Prop) (rest : List RuleState) (k : Nat)
    (w w' : Sweep) : Prop :=
  w'.changed = w.changed ∧ Bound (w'.rules ++ rest) w'.session k ∨
    w'.changed = true ∧ ∃ k' < k, Bound (w'.rules ++ rest) w'.session k'

/-- A part of a sweep that advances, or fails for another reason than want of a fixpoint. -/
def Runs (Bound : List RuleState → Session → Nat → Prop) (rest : List RuleState) (k : Nat)
    (w : Sweep) (x : Except Failure Sweep) : Prop :=
  Settles x ∧ ∀ w', x = .ok w' → Advances Bound rest k w w'

theorem runs_pure (bound : Bound (w.rules ++ rest) w.session k) :
    Runs Bound rest k w (pure w) := by
  refine ⟨settles_pure w, fun w' done => ?_⟩
  cases pure_ok_iff.mp done
  exact .inl ⟨rfl, bound⟩

theorem Runs.bind {x : Except Failure Sweep} {f : Sweep → Except Failure Sweep}
    (first : Runs Bound rest k w x) (second : ∀ k' w', Bound (w'.rules ++ rest) w'.session k' →
      Runs Bound rest' k' w' (f w')) : Runs Bound rest' k w (x >>= f) := by
  constructor
  · refine settles_bind_of_ok first.1 fun w' done => ?_
    rcases first.2 w' done with ⟨_, bound⟩ | ⟨_, k', _, bound⟩
    · exact (second k w' bound).1
    · exact (second k' w' bound).1
  · intro w'' done
    obtain ⟨w', done, later⟩ := bind_ok_iff.mp done
    rcases first.2 w' done with ⟨same, bound⟩ | ⟨changed, k', less, bound⟩
    · rcases (second k w' bound).2 w'' later with ⟨same', bound'⟩ | later
      · exact .inl ⟨same'.trans same, bound'⟩
      · exact .inr later
    · rcases (second k' w' bound).2 w'' later with ⟨same', bound'⟩ | ⟨changed', k'', less', bound'⟩
      · exact .inr ⟨same'.trans changed, k', less, bound'⟩
      · exact .inr ⟨changed', k'', less'.trans less, bound'⟩

theorem Runs.of_ok {α : Type} {x : Except Failure α} {f : α → Except Failure Sweep}
    (fine : Settles x) (second : ∀ a, x = .ok a → Runs Bound rest k w (f a)) :
    Runs Bound rest k w (x >>= f) := by
  refine ⟨settles_bind_of_ok fine fun a done => (second a done).1, fun w' done => ?_⟩
  obtain ⟨a, first, later⟩ := bind_ok_iff.mp done
  exact (second a first).2 w' later

theorem runs_foldlM {α : Type} {f : Sweep → α → Except Failure Sweep} {l : List α}
    (each : ∀ {k w} a, a ∈ l → Bound w.rules w.session k → Runs Bound [] k w (f w a))
    (bound : Bound w.rules w.session k) : Runs Bound [] k w (l.foldlM f w) := by
  induction l generalizing w k with
  | nil => exact runs_pure (by rwa [List.append_nil])
  | cons a l ih =>
    rw [List.foldlM_cons]
    refine (each a List.mem_cons_self bound).bind fun k' w' bound' => ?_
    rw [List.append_nil] at bound'
    exact ih (fun b member => each b (List.mem_cons_of_mem _ member)) bound'

section

variable (falls : Falls Bound)

include falls

theorem runs_applyRule {r : RuleState}
    (bound : Bound (w.rules ++ r :: rest) w.session k) :
    Runs Bound rest k w (applyRule hook slot w r) := by
  refine .of_ok (w.session.plan.settles_nodeAt slot) fun id here => ?_
  cases isMatch : r.rule.pattern.isMatch w.session.plan id with
  | false =>
    refine ⟨settles_pure _, fun w' done => ?_⟩
    cases pure_ok_iff.mp done
    exact .inl ⟨rfl, by simpa using bound⟩
  | true =>
    refine .of_ok (falls.settles hook slot bound) fun ⟨r', s', fired⟩ offered => ?_
    cases fired with
    | false =>
      refine ⟨settles_pure _, fun w' done => ?_⟩
      cases pure_ok_iff.mp done
      exact .inl ⟨rfl, by simpa using falls.keeps here isMatch bound offered⟩
    | true =>
      refine .of_ok s'.settles_refreshSchemas fun s'' refreshed => ⟨settles_pure _, ?_⟩
      intro w' done
      cases pure_ok_iff.mp done
      obtain ⟨k', less, bound'⟩ := falls.lowers here isMatch bound offered refreshed
      exact .inr ⟨rfl, k', less, by simpa using bound'⟩

/-- Rules that are offered a slot one after the other. -/
theorem runs_rules (bound : Bound (w.rules ++ rules) w.session k) :
    Runs Bound [] k w (rules.foldlM (applyRule hook slot) w) := by
  induction rules generalizing w k with
  | nil => exact runs_pure bound
  | cons r rules ih =>
    rw [List.foldlM_cons]
    exact (runs_applyRule falls bound).bind fun k' w' bound' => ih bound'

theorem runs_apply (bound : Bound w.rules w.session k) :
    Runs Bound [] k w (w.apply hook slot) := by
  have start : Bound (({ w with rules := [] } : Sweep).rules ++ w.rules) w.session k := bound
  exact runs_rules falls start

/-- A sweep over everything at and below a slot. -/
theorem runs_sweepWithin (fuel : Nat) (bound : Bound w.rules w.session k) :
    Runs Bound [] k w (sweepWithin fullDepth fuel w slot) := by
  induction fuel generalizing w k slot with
  | zero => exact ⟨settles_error_iff.mpr (by simp), fun w' impossible => by cases impossible⟩
  | succ fuel ih =>
    refine (runs_apply falls bound).bind fun k' mid bound' => ?_
    rw [List.append_nil] at bound'
    refine .of_ok (mid.session.plan.settles_nodeAt slot) fun id _ => ?_
    have later : ∀ k w, Bound (w.rules ++ []) w.session k →
        Runs Bound [] k w (w.apply .after slot) := by
      intro k w bound
      rw [List.append_nil] at bound
      exact runs_apply falls bound
    split
    · refine Runs.bind (runs_pure ?_) later
      rwa [List.append_nil]
    · have children : Runs Bound [] k' { mid with visited := id :: mid.visited }
          ((if fullDepth then mid.session.plan.childSlots id else
            mid.session.plan.inputSlots id).foldlM (sweepWithin fullDepth fuel)
            { mid with visited := id :: mid.visited }) :=
        runs_foldlM (fun child _ bound => ih bound) bound'
      exact Runs.bind children later

end

end Sweep

namespace Batch

variable {Bound : List RuleState → Session → Nat → Prop} {batch : Batch}

/-- A batch that may sweep more often than its rules can fire does not run out of sweeps. -/
theorem settles_sweepUntilStable (falls : Falls Bound)
    {sweeps k : Nat} {changed : Bool} {rules : List RuleState} {s : Session} (enough : k < sweeps)
    (bound : Bound rules s k) : Settles (batch.sweepUntilStable sweeps changed rules s) := by
  induction sweeps generalizing k changed rules s with
  | zero => cases enough
  | succ sweeps ih =>
    obtain ⟨fine, advances⟩ : Sweep.Runs Bound [] k { rules := rules, session := s }
        (batch.sweep rules s) := Sweep.runs_sweepWithin falls _ bound
    refine settles_bind_of_ok fine fun w done => ?_
    rcases advances w done with ⟨same, _⟩ | ⟨changed, k', less, bound'⟩
    · rw [same]
      exact settles_pure _
    · rw [List.append_nil] at bound'
      rw [changed]
      exact ih (by omega) bound'

theorem settles_run (falls : Falls Bound)
    (untilStable : batch.controller.untilStable = true) {s : Session} {k : Nat}
    (enough : k < s.context.config.maxSweeps)
    (bound : Bound (batch.rules.map fun rule => { rule := rule }) s k) : Settles (batch.run s) := by
  unfold run
  rw [untilStable]
  exact settles_bind (settles_sweepUntilStable falls enough bound) fun _ => settles_pure _

end Batch

end QueryOptimizer
