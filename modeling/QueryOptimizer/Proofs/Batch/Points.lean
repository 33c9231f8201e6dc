import Mathlib
import QueryOptimizer.Optimizer
import QueryOptimizer.Proofs.Transform.Changes

/-! # Between the hooks of a run

A run of the optimizer offers one slot after the other to one rule after the other. Between two
offers there is a session, and what every offer keeps holds of all of these sessions, whether the run
succeeds or not.
-/

namespace QueryOptimizer

/-- A point inside a fold: some steps are done, and the point is inside the next one. -/
def FoldPoint {σ α τ : Type} (step : σ → α → Except Failure σ) (inside : σ → α → τ → Prop) (start : σ)
    (items : List α) (x : τ) : Prop :=
  ∃ done item rest mid, items = done ++ item :: rest ∧ done.foldlM step start = .ok mid ∧
    inside mid item x

namespace Sweep

/-- The sessions after the offers of a slot to each rule. -/
def OfferPoint (hook : Hook) (slot : Slot) (w : Sweep) (x : Session) : Prop :=
  FoldPoint (applyRule hook slot) (fun w r x => ∃ w', applyRule hook slot w r = .ok w' ∧ x = w'.session)
    { w with rules := [] } w.rules x

/-- The sessions after the offers of everything at and below a slot. -/
def Point (fullDepth : Bool) : Nat → Sweep → Slot → Session → Prop
  | 0, _, _, _ => False
  | fuel + 1, w, slot, x =>
    OfferPoint .before slot w x ∨
    ∃ w₁ id, w.apply .before slot = .ok w₁ ∧ w₁.session.plan.nodeAt slot = .ok id ∧
      let plan := w₁.session.plan
      let children := if fullDepth then plan.childSlots id else plan.inputSlots id
      let entered := { w₁ with visited := id :: w₁.visited }
      (id ∉ w₁.visited ∧
          FoldPoint (sweepWithin fullDepth fuel) (Point fullDepth fuel) entered children x ∨
        ∃ w₂, (id ∈ w₁.visited ∧ w₂ = w₁ ∨ id ∉ w₁.visited ∧
            children.foldlM (sweepWithin fullDepth fuel) entered = .ok w₂) ∧
          OfferPoint .after slot w₂ x)

end Sweep

namespace Batch

/-- The sessions between the hooks of a batch that sweeps until nothing changes. -/
def StablePoint (batch : Batch) : Nat → List RuleState → Session → Session → Prop
  | 0, _, _, _ => False
  | sweeps + 1, rules, s, x =>
    Sweep.Point batch.controller.fullDepth s.plan.sweepDepth { rules := rules, session := s } .root x ∨
    ∃ w, batch.sweep rules s = .ok w ∧ w.changed = true ∧ StablePoint batch sweeps w.rules w.session x

/-- The sessions between the hooks of a batch. -/
def Point (batch : Batch) (s x : Session) : Prop :=
  let rules := batch.rules.map fun rule => { rule := rule }
  if batch.controller.untilStable then batch.StablePoint s.context.config.maxSweeps rules s x
  else Sweep.Point batch.controller.fullDepth s.plan.sweepDepth { rules := rules, session := s } .root x

/-- The sessions between the hooks of batches that run one after the other. -/
def RunPoint (batches : List Batch) (s x : Session) : Prop :=
  FoldPoint (fun s batch => return (← batch.run s).1) (fun s batch x => batch.Point s x) s batches x

end Batch

/-- The sessions between the hooks of an optimization. -/
def Session.OptimizePoint (s : Session) (logical physical : List Batch) (x : Session) : Prop :=
  ∃ s₀, (s.mapContext fun context =>
      (context.reserve s.plan.maxVariable?).resetApplied).refreshSchemas = .ok s₀ ∧
    (Batch.RunPoint logical s₀ x ∨ ∃ s₁ s₂, Batch.runAll logical s₀ = .ok s₁ ∧
      s₁.refreshSchemas = .ok s₂ ∧ Batch.RunPoint physical s₂ x)

/-! ## Invariants -/

namespace Sweep

variable {hook : Hook} {slot : Slot} {w w' : Sweep} {r : RuleState}

/-- An offer does nothing to the sweep, or what the rule does to the session and to its own state. -/
theorem applyRule_cases (done : applyRule hook slot w r = .ok w') :
    ∃ id, w.session.plan.nodeAt slot = .ok id ∧
      (r.rule.pattern.isMatch w.session.plan id = false ∧ w' = { w with rules := w.rules ++ [r] } ∨
      r.rule.pattern.isMatch w.session.plan id = true ∧ ∃ r' s fired,
        r.offer hook slot w.session = .ok (r', s, fired) ∧
        (fired = false ∧ w' = { w with rules := w.rules ++ [r'], session := s } ∨
          fired = true ∧ ∃ plan, s.plan.refreshSchemas = .ok plan ∧
            w' = { w with
              rules := w.rules ++ [r'],
              session := (s.withPlan plan).mapContext (·.invalidate), changed := true })) := by
  obtain ⟨id, here, done⟩ := bind_ok_iff.mp done
  refine ⟨id, here, ?_⟩
  split at done
  · rename_i other
    cases pure_ok_iff.mp done
    exact .inl ⟨by simpa using other, rfl⟩
  · rename_i isMatch
    refine .inr ⟨by simpa using isMatch, ?_⟩
    obtain ⟨⟨r', s, fired⟩, offered, done⟩ := bind_ok_iff.mp done
    refine ⟨r', s, fired, offered, ?_⟩
    cases fired with
    | false =>
      cases pure_ok_iff.mp done
      exact .inl ⟨rfl, rfl⟩
    | true =>
      obtain ⟨s', refreshed, done⟩ := bind_ok_iff.mp done
      cases pure_ok_iff.mp done
      obtain ⟨plan, computed, rfl⟩ := Session.refreshSchemas_ok refreshed
      exact .inr ⟨rfl, plan, computed, rfl⟩

/-- What holds of rules and a session, and is kept by every offer of a slot that a reachable node
    holds. What is above the slot has to stay above it. -/
structure Keeps (Inv : List RuleState → Session → Prop) : Prop where
  step : ∀ {hook slot w r w' rest}, Inv (w.rules ++ r :: rest) w.session →
    w.session.plan.HoldsReachable slot → applyRule hook slot w r = .ok w' →
    Inv (w'.rules ++ rest) w'.session ∧ Plan.Retains slot.holder? w.session.plan w'.session.plan

section

variable {Inv : List RuleState → Session → Prop} (keeps : Keeps Inv) {rules rest : List RuleState}
  {x : Session} {fullDepth : Bool} {fuel : Nat}

include keeps

theorem Keeps.offers (inv : Inv (w.rules ++ (rules ++ rest)) w.session)
    (holds : w.session.plan.HoldsReachable slot) (done : rules.foldlM (applyRule hook slot) w = .ok w') :
    Inv (w'.rules ++ rest) w'.session ∧
      Plan.Retains slot.holder? w.session.plan w'.session.plan := by
  induction rules generalizing w with
  | nil =>
    cases foldlM_nil_ok_iff.mp done
    exact ⟨inv, .refl _ _⟩
  | cons r rules ih =>
    obtain ⟨w₁, first, done⟩ := foldlM_cons_ok_iff.mp done
    obtain ⟨inv₁, retains⟩ := keeps.step inv holds first
    obtain ⟨inv₂, retains'⟩ := ih inv₁ (holds.retained retains) done
    exact ⟨inv₂, retains.trans retains'⟩

theorem Keeps.apply (inv : Inv w.rules w.session) (holds : w.session.plan.HoldsReachable slot)
    (done : w.apply hook slot = .ok w') : Inv w'.rules w'.session ∧
      Plan.Retains slot.holder? w.session.plan w'.session.plan := by
  have start : Inv (({ w with rules := [] } : Sweep).rules ++ (w.rules ++ [])) w.session := by
    simpa using inv
  simpa using keeps.offers start holds done

theorem Keeps.offerPoint (inv : Inv w.rules w.session) (holds : w.session.plan.HoldsReachable slot)
    (point : OfferPoint hook slot w x) : ∃ rules, Inv rules x := by
  obtain ⟨before, r, rest, mid, split, done, w', applied, rfl⟩ := point
  have start : Inv (({ w with rules := [] } : Sweep).rules ++ (before ++ r :: rest)) w.session := by
    simpa [split] using inv
  obtain ⟨inv', retains⟩ := keeps.offers start holds done
  exact ⟨_, (keeps.step inv' (holds.retained retains) applied).1⟩

end

theorem holder?_of_mem_children {plan : Plan} {id : NodeId} {fullDepth : Bool}
    (member : slot ∈ if fullDepth then plan.childSlots id else plan.inputSlots id) :
    slot.holder? = some id := by
  have input : ∀ slot ∈ plan.inputSlots id, slot.holder? = some id := by
    intro slot member
    obtain ⟨index, _, rfl⟩ := List.mem_map.mp member
    rfl
  split at member
  · rcases List.mem_append.mp member with isInput | isNested
    · exact input slot isInput
    · obtain ⟨entry, _, found⟩ := List.mem_flatMap.mp isNested
      obtain ⟨index, _, rfl⟩ := List.mem_map.mp found
      rfl
  · exact input slot member

/-- The slots of the children of a reachable node, one after the other. -/
theorem children_keep {Inv : List RuleState → Session → Prop} {fullDepth : Bool} {fuel : Nat}
    {id : NodeId} {slots : List Slot} (done : slots.foldlM (sweepWithin fullDepth fuel) w = .ok w')
    (each : ∀ {slot w w'}, slot ∈ slots → Inv w.rules w.session → w.session.plan.HoldsReachable slot →
      sweepWithin fullDepth fuel w slot = .ok w' → Inv w'.rules w'.session ∧
        Plan.Retains slot.holder? w.session.plan w'.session.plan)
    (held : ∀ slot ∈ slots, slot.holder? = some id) (inv : Inv w.rules w.session)
    (reached : w.session.plan.Reaches id) : Inv w'.rules w'.session ∧
      Plan.Retains (some id) w.session.plan w'.session.plan := by
  induction slots generalizing w with
  | nil =>
    cases foldlM_nil_ok_iff.mp done
    exact ⟨inv, .refl _ _⟩
  | cons slot slots ih =>
    obtain ⟨w₁, first, done⟩ := foldlM_cons_ok_iff.mp done
    have holder := held slot List.mem_cons_self
    have holds : w.session.plan.HoldsReachable slot := by
      intro h isHolder
      cases holder.symm.trans isHolder
      exact reached
    obtain ⟨inv₁, retains⟩ := each List.mem_cons_self inv holds first
    rw [holder] at retains
    obtain ⟨inv₂, retains'⟩ := ih done (fun member => each (List.mem_cons_of_mem _ member))
      (fun slot member => held slot (List.mem_cons_of_mem _ member)) inv₁ (retains.reaches reached)
    exact ⟨inv₂, retains.trans retains'⟩

/-- A sweep offers the slot, then everything below it unless that was done before, and the slot
    again. -/
theorem sweepWithin_cases {fullDepth : Bool} {fuel : Nat}
    (done : sweepWithin fullDepth (fuel + 1) w slot = .ok w') :
    ∃ w₁ id w₂, w.apply .before slot = .ok w₁ ∧ w₁.session.plan.nodeAt slot = .ok id ∧
      (id ∈ w₁.visited ∧ w₂ = w₁ ∨ id ∉ w₁.visited ∧
        (if fullDepth then w₁.session.plan.childSlots id else w₁.session.plan.inputSlots id).foldlM
          (sweepWithin fullDepth fuel) { w₁ with visited := id :: w₁.visited } = .ok w₂) ∧
      w₂.apply .after slot = .ok w' := by
  obtain ⟨w₁, before, done⟩ := bind_ok_iff.mp done
  obtain ⟨id, here, done⟩ := bind_ok_iff.mp done
  split at done
  · rename_i visited
    obtain ⟨w₂, same, done⟩ := bind_ok_iff.mp done
    exact ⟨w₁, id, w₂, before, here, .inl ⟨visited, (pure_ok_iff.mp same).symm⟩, done⟩
  · rename_i new
    obtain ⟨w₂, children, done⟩ := bind_ok_iff.mp done
    exact ⟨w₁, id, w₂, before, here, .inr ⟨new, children⟩, done⟩

section

variable {Inv : List RuleState → Session → Prop} (keeps : Keeps Inv) {x : Session} {fullDepth : Bool}

include keeps

omit keeps in
theorem below_keep {fuel : Nat} {w₁ w₂ : Sweep} {id : NodeId}
    (each : ∀ {slot w w'}, Inv w.rules w.session → w.session.plan.HoldsReachable slot →
      sweepWithin fullDepth fuel w slot = .ok w' → Inv w'.rules w'.session ∧
        Plan.Retains slot.holder? w.session.plan w'.session.plan)
    (inv : Inv w₁.rules w₁.session) (reached : w₁.session.plan.Reaches id)
    (swept : id ∈ w₁.visited ∧ w₂ = w₁ ∨ id ∉ w₁.visited ∧
      (if fullDepth then w₁.session.plan.childSlots id else w₁.session.plan.inputSlots id).foldlM
        (sweepWithin fullDepth fuel) { w₁ with visited := id :: w₁.visited } = .ok w₂) :
    Inv w₂.rules w₂.session ∧ Plan.Retains (some id) w₁.session.plan w₂.session.plan := by
  rcases swept with ⟨_, rfl⟩ | ⟨_, swept⟩
  · exact ⟨inv, .refl _ _⟩
  · have kept := children_keep swept (fun _ => each) (fun slot => holder?_of_mem_children) inv reached
    exact kept

theorem Keeps.sweepWithin (fuel : Nat) (inv : Inv w.rules w.session)
    (holds : w.session.plan.HoldsReachable slot) (done : sweepWithin fullDepth fuel w slot = .ok w') :
    Inv w'.rules w'.session ∧ Plan.Retains slot.holder? w.session.plan w'.session.plan := by
  induction fuel generalizing w w' slot with
  | zero => cases done
  | succ fuel ih =>
    obtain ⟨w₁, id, w₂, before, here, swept, after⟩ := sweepWithin_cases done
    obtain ⟨inv₁, retains₁⟩ := keeps.apply inv holds before
    have holds₁ := holds.retained retains₁
    obtain ⟨inv₂, below⟩ := below_keep ih inv₁ (holds₁.reaches here) swept
    have retains₂ := below.lift here
    obtain ⟨inv₃, retains₃⟩ := keeps.apply inv₂ (holds₁.retained retains₂) after
    exact ⟨inv₃, (retains₁.trans retains₂).trans retains₃⟩

/-- What every offer keeps holds between all of them. -/
theorem Keeps.point (fuel : Nat) (inv : Inv w.rules w.session)
    (holds : w.session.plan.HoldsReachable slot) (point : Point fullDepth fuel w slot x) :
    ∃ rules, Inv rules x := by
  induction fuel generalizing w slot with
  | zero => exact point.elim
  | succ fuel ih =>
    rcases point with point | ⟨w₁, id, before, here, ⟨new, point⟩ | ⟨w₂, swept, point⟩⟩
    · exact keeps.offerPoint inv holds point
    · obtain ⟨inv₁, retains₁⟩ := keeps.apply inv holds before
      have reached := (holds.retained retains₁).reaches here
      obtain ⟨earlier, child, later, mid, split, swept, point⟩ := point
      have held : ∀ slot ∈ earlier ++ child :: later, slot.holder? = some id := by
        intro slot member
        rw [← split] at member
        exact holder?_of_mem_children member
      obtain ⟨inv₂, below⟩ := children_keep swept (fun _ => keeps.sweepWithin fuel)
        (fun slot member => held slot (List.mem_append_left _ member)) inv₁ reached
      refine ih inv₂ (fun h isHolder => ?_) point
      cases (held child (by simp)).symm.trans isHolder
      exact below.reaches reached
    · obtain ⟨inv₁, retains₁⟩ := keeps.apply inv holds before
      have holds₁ := holds.retained retains₁
      obtain ⟨inv₂, below⟩ := below_keep (keeps.sweepWithin fuel) inv₁ (holds₁.reaches here) swept
      exact keeps.offerPoint inv₂ (holds₁.retained (below.lift here)) point

end

end Sweep

namespace Batch

open Sweep

variable {Inv : List RuleState → Session → Prop} (keeps : Keeps Inv) {batch : Batch}
  {rules : List RuleState} {s s' x : Session} {changed changed' : Bool}

include keeps

theorem keeps_sweep {w : Sweep} (inv : Inv rules s) (done : batch.sweep rules s = .ok w) :
    Inv w.rules w.session :=
  (keeps.sweepWithin _ inv (fun _ impossible => by cases impossible) done).1

theorem keeps_sweepUntilStable {sweeps : Nat} (inv : Inv rules s)
    (done : batch.sweepUntilStable sweeps changed rules s = .ok (s', changed')) :
    ∃ rules, Inv rules s' := by
  induction sweeps generalizing rules s changed with
  | zero => cases done
  | succ sweeps ih =>
    obtain ⟨w, swept, done⟩ := bind_ok_iff.mp done
    have inv' := keeps_sweep keeps inv swept
    split at done
    · exact ih inv' done
    · cases pure_ok_iff.mp done
      exact ⟨_, inv'⟩

theorem keeps_stablePoint {sweeps : Nat} (inv : Inv rules s)
    (point : batch.StablePoint sweeps rules s x) : ∃ rules, Inv rules x := by
  induction sweeps generalizing rules s with
  | zero => exact point.elim
  | succ sweeps ih =>
    rcases point with point | ⟨w, swept, _, point⟩
    · exact keeps.point _ inv (fun _ impossible => by cases impossible) point
    · exact ih (keeps_sweep keeps inv swept) point

/-- The session of a batch before what cannot be reached any more is removed. -/
theorem keeps_run (inv : Inv (batch.rules.map fun rule => { rule := rule }) s)
    (done : batch.run s = .ok (s', changed)) :
    ∃ rules s₁, Inv rules s₁ ∧ s' = collectGarbage s₁ := by
  unfold run at done
  dsimp only at done
  split at done
  · obtain ⟨⟨s₁, changed₁⟩, swept, done⟩ := bind_ok_iff.mp done
    cases pure_ok_iff.mp done
    obtain ⟨rules, inv'⟩ := keeps_sweepUntilStable keeps inv swept
    exact ⟨rules, s₁, inv', rfl⟩
  · obtain ⟨w, swept, done⟩ := bind_ok_iff.mp done
    cases pure_ok_iff.mp done
    exact ⟨_, _, keeps_sweep keeps inv swept, rfl⟩

theorem keeps_point (inv : Inv (batch.rules.map fun rule => { rule := rule }) s)
    (point : batch.Point s x) : ∃ rules, Inv rules x := by
  unfold Batch.Point at point
  dsimp only at point
  split at point
  · exact keeps_stablePoint keeps inv point
  · exact keeps.point _ inv (fun _ impossible => by cases impossible) point

end Batch

end QueryOptimizer
