import Mathlib
import QueryOptimizer.Proofs.Batch.Points
import QueryOptimizer.Proofs.Plan.Regrouped

/-! # Sweeps that visit everything

A sweep over a plan that keeps its shape offers every reachable node at least once. What an offer
achieves for its node, and later offers keep, holds of all reachable nodes in the end. A sweep whose
offers all succeed succeeds.
-/

namespace QueryOptimizer

namespace Plan

variable {plan plan' : Plan} {id n c : NodeId} {slot : Slot}

theorem Regrouped.nodeAt (regrouped : plan.Regrouped plan') :
    plan'.nodeAt slot = .ok n ↔ plan.nodeAt slot = .ok n :=
  nodeAt_congr regrouped.root fun n _ => ⟨regrouped.inputs n, (regrouped.operator n).nested_eq⟩

theorem exists_childSlot (member : c ∈ plan.children id) :
    ∃ slot ∈ plan.childSlots id, plan.nodeAt slot = .ok c := by
  rcases List.mem_append.mp member with isInput | isRoot
  · obtain ⟨index, found⟩ := List.mem_iff_getElem?.mp isInput
    have inside := (List.getElem?_eq_some_iff.mp found).1
    exact ⟨.input id index, List.mem_append_left _ (List.mem_map.mpr
      ⟨index, List.mem_range.mpr inside, rfl⟩), input_ok_iff.mpr found⟩
  · obtain ⟨roots, isPlan, isRoot⟩ := List.mem_flatten.mp isRoot
    obtain ⟨p, foundPlan⟩ := List.mem_iff_getElem?.mp isPlan
    obtain ⟨index, found⟩ := List.mem_iff_getElem?.mp isRoot
    have inside := (List.getElem?_eq_some_iff.mp found).1
    refine ⟨.nestedRoot id p index, List.mem_append_right _ (List.mem_flatMap.mpr ⟨(roots, p), ?_, ?_⟩),
      nodeAt_nestedRoot_ok_iff.mpr ?_⟩
    · exact List.mem_zipIdx_iff_getElem?.mpr foundPlan
    · exact List.mem_map.mpr ⟨index, List.mem_range.mpr inside, rfl⟩
    · rw [foundPlan]
      exact found

theorem exists_child_of_slot (member : slot ∈ plan.childSlots id) :
    ∃ c ∈ plan.children id, plan.nodeAt slot = .ok c := by
  rcases List.mem_append.mp member with isInput | isNested
  · obtain ⟨index, inside, rfl⟩ := List.mem_map.mp isInput
    have found := List.getElem?_eq_getElem (List.mem_range.mp inside)
    exact ⟨_, List.mem_append_left _ (List.mem_of_getElem? found), input_ok_iff.mpr found⟩
  · obtain ⟨⟨roots, p⟩, isPlan, isRoot⟩ := List.mem_flatMap.mp isNested
    obtain ⟨index, inside, rfl⟩ := List.mem_map.mp isRoot
    have foundPlan := List.mem_zipIdx_iff_getElem?.mp isPlan
    have found := List.getElem?_eq_getElem (List.mem_range.mp inside)
    refine ⟨_, List.mem_append_right _ (List.mem_flatten.mpr
      ⟨roots, List.mem_of_getElem? foundPlan, List.mem_of_getElem? found⟩), nodeAt_nestedRoot_ok_iff.mpr ?_⟩
    rw [foundPlan]
    exact found

theorem add_length_le_foldl {α : Type} {f : Nat → α → Nat} (grows : ∀ total a, total + 1 ≤ f total a)
    (l : List α) (total : Nat) : total + l.length ≤ l.foldl f total := by
  induction l generalizing total with
  | nil => exact le_rfl
  | cons a l ih =>
    have := grows total a
    have := ih (f total a)
    rw [List.foldl_cons, List.length_cons]
    omega

/-- A sweep has more fuel than there are nodes. -/
theorem length_ids_lt_sweepDepth (plan : Plan) : plan.ids.length < plan.sweepDepth := by
  unfold sweepDepth
  refine Nat.lt_of_lt_of_le (Nat.lt_succ_of_le (Nat.le_succ_of_le ?_)) (Nat.le_mul_self _)
  refine (Nat.zero_add _).symm.trans_le (add_length_le_foldl (fun total id => ?_) plan.ids 0)
  split
  · exact Nat.le_add_right _ _
  · exact Nat.le_refl _

theorem WellFormed.exists_depth (wellFormed : plan.WellFormed) :
    ∃ rank, plan.Descends rank ∧ ∀ n, rank n < plan.sweepDepth := by
  obtain ⟨rank, falls, low⟩ := wellFormed.exists_rank_le fun n => wellFormed.mem_ids
  exact ⟨rank, falls.descends, fun n => (low n).trans_lt plan.length_ids_lt_sweepDepth⟩

end Plan

namespace Sweep

variable {Inv : Sweep → Prop} {Met : Session → NodeId → Prop} {w w' w₁ w₂ : Sweep} {slot : Slot}
  {id n : NodeId} {fuel : Nat} {hook : Hook} {r : RuleState} {fullDepth quiet : Bool} {meets : Hook}

/-! ## Offers -/

/-- An offer to the one rule of a sweep. -/
theorem apply_of_single (rules : w.rules = [r]) (hook : Hook) (slot : Slot) :
    w.apply hook slot = applyRule hook slot { w with rules := [] } r := by
  unfold apply
  rw [rules]
  exact bind_pure _

theorem apply_single (rules : w.rules = [r]) (done : w.apply hook slot = .ok w') :
    applyRule hook slot { w with rules := [] } r = .ok w' :=
  (apply_of_single rules hook slot).symm.trans done

theorem holder?_of_mem_childSlots {plan : Plan} (member : slot ∈ plan.childSlots id) :
    slot.holder? = some id :=
  holder?_of_mem_children (show slot ∈ if true then plan.childSlots id else plan.inputSlots id from member)

/-- An offer visits nothing, and what was changed stays changed. -/
theorem visited_apply (done : w.apply hook slot = .ok w') :
    w'.visited = w.visited ∧ (w.changed = true → w'.changed = true) := by
  refine foldlM_keeps (fun w' => w'.visited = w.visited ∧ (w.changed = true → w'.changed = true))
    (fun r _ w₁ w₂ kept step => ?_) ⟨rfl, fun changed => changed⟩ done
  obtain ⟨_, _, ⟨_, rfl⟩ | ⟨_, _, _, _, _, ⟨_, rfl⟩ | ⟨_, _, _, rfl⟩⟩⟩ := applyRule_cases step
  · exact kept
  · exact kept
  · exact ⟨kept.1, fun _ => rfl⟩

theorem changed_sweepWithin (done : sweepWithin fullDepth fuel w slot = .ok w')
    (changed : w.changed = true) : w'.changed = true := by
  induction fuel generalizing w w' slot with
  | zero => cases done
  | succ fuel ih =>
    obtain ⟨w₁, id, w₂, before, _, swept, after⟩ := sweepWithin_cases done
    have changed₁ := (visited_apply before).2 changed
    refine (visited_apply after).2 ?_
    rcases swept with ⟨_, rfl⟩ | ⟨_, swept⟩
    · exact changed₁
    · exact foldlM_keeps (fun w => w.changed = true) (fun _ _ _ _ before step => ih step before)
        changed₁ swept

/-- What is unchanged in the end was never changed. -/
theorem unchanged_foldlM {slots : List Slot} (done : slots.foldlM (sweepWithin fullDepth fuel) w = .ok w')
    (unchanged : w'.changed = false) : w.changed = false :=
  Bool.eq_false_iff.mpr fun changed => Bool.eq_false_iff.mp unchanged
    (foldlM_keeps (fun w => w.changed = true)
      (fun _ _ _ _ before step => changed_sweepWithin step before) changed done)

theorem unchanged_apply (done : w.apply hook slot = .ok w') (unchanged : w'.changed = false) :
    w.changed = false :=
  Bool.eq_false_iff.mpr fun changed => Bool.eq_false_iff.mp unchanged ((visited_apply done).2 changed)

/-! ## What a sweep achieves -/

/-- What all offers keep, and what an offer on the way down or up achieves for its node. If the sweep
    has to be quiet, only offers count that change nothing. -/
structure Attains (quiet : Bool) (meets : Hook) (Inv : Sweep → Prop) (Met : Session → NodeId → Prop) :
    Prop where
  visit : ∀ {w : Sweep} {id : NodeId}, Inv w → Inv { w with visited := id :: w.visited }
  offer : ∀ {hook : Hook} {w w' : Sweep} {slot : Slot} {id : NodeId}, Inv w →
    w.session.plan.HoldsReachable slot → w.session.plan.nodeAt slot = .ok id →
    w.apply hook slot = .ok w' → (quiet = true → w'.changed = false) → Inv w' ∧ w.session.plan.Regrouped w'.session.plan ∧
      (∀ n, Met w.session n → Met w'.session n) ∧ (hook = meets → Met w'.session id)

/-- A part of a sweep that achieves something for what it visits. -/
structure Progress (Met : Session → NodeId → Prop) (w w' : Sweep) : Prop where
  regrouped : w.session.plan.Regrouped w'.session.plan
  visited : ∀ n ∈ w.visited, n ∈ w'.visited
  kept : ∀ n, Met w.session n → Met w'.session n
  met : ∀ n ∈ w'.visited, n ∉ w.visited → Met w'.session n
  closed : ∀ n ∈ w'.visited, n ∉ w.visited → ∀ c ∈ w'.session.plan.children n, c ∈ w'.visited

namespace Progress

/-- An offer visits nothing. -/
theorem of_offer (regrouped : w.session.plan.Regrouped w'.session.plan) (visited : w'.visited = w.visited)
    (kept : ∀ n, Met w.session n → Met w'.session n) : w.Progress Met w' :=
  ⟨regrouped, fun _ member => visited ▸ member, kept, fun _ member new => absurd (visited ▸ member) new,
    fun _ member new => absurd (visited ▸ member) new⟩

theorem trans (first : w.Progress Met w₁) (second : w₁.Progress Met w₂) : w.Progress Met w₂ where
  regrouped := first.regrouped.trans second.regrouped
  visited n member := second.visited n (first.visited n member)
  kept n met := second.kept n (first.kept n met)
  met n member new := by
    by_cases earlier : n ∈ w₁.visited
    · exact second.kept n (first.met n earlier new)
    · exact second.met n member earlier
  closed n member new c child := by
    by_cases earlier : n ∈ w₁.visited
    · have child := second.regrouped.redrawn.mem_children.mp child
      exact second.visited c (first.closed n earlier new c child)
    · exact second.closed n member earlier c child

/-- A node is visited, and everything below it, before it is offered again. -/
theorem enter (progress : Progress Met { w with visited := id :: w.visited } w') (met : Met w'.session id)
    (children : ∀ c ∈ w'.session.plan.children id, c ∈ w'.visited) : w.Progress Met w' where
  regrouped := progress.regrouped
  visited n member := progress.visited n (List.mem_cons_of_mem _ member)
  kept := progress.kept
  met n member new := by
    by_cases isId : n = id
    · exact isId ▸ met
    · exact progress.met n member fun listed => (List.mem_cons.mp listed).elim isId new
  closed n member new := by
    by_cases isId : n = id
    · exact isId ▸ children
    · exact progress.closed n member fun listed => (List.mem_cons.mp listed).elim isId new

end Progress

namespace Attains

/-- The slots of children, one after the other. -/
theorem foldlM {slots : List Slot}
    (each : ∀ {w w' : Sweep} {slot : Slot} {id : NodeId}, Inv w → w.session.plan.HoldsReachable slot →
      w.session.plan.nodeAt slot = .ok id → sweepWithin true fuel w slot = .ok w' →
      (quiet = true → w'.changed = false) → Inv w' ∧ w.Progress Met w' ∧ id ∈ w'.visited)
    (inv : Inv w)
    (held : ∀ slot ∈ slots, w.session.plan.HoldsReachable slot ∧ ∃ c, w.session.plan.nodeAt slot = .ok c)
    (done : slots.foldlM (sweepWithin true fuel) w = .ok w') (calm : quiet = true → w'.changed = false) :
    Inv w' ∧ w.Progress Met w' ∧
      ∀ slot ∈ slots, ∀ n, w.session.plan.nodeAt slot = .ok n → n ∈ w'.visited := by
  induction slots generalizing w with
  | nil =>
    cases foldlM_nil_ok_iff.mp done
    exact ⟨inv, .of_offer (.refl _) rfl fun _ met => met, fun _ impossible => by cases impossible⟩
  | cons slot slots ih =>
    obtain ⟨w₁, first, done⟩ := foldlM_cons_ok_iff.mp done
    obtain ⟨holds, c, here⟩ := held slot List.mem_cons_self
    obtain ⟨inv₁, progress, inside⟩ := each inv holds here first fun isQuiet =>
      unchanged_foldlM done (calm isQuiet)
    have regrouped := progress.regrouped
    obtain ⟨inv₂, rest, others⟩ := ih inv₁ (fun slot member => by
      obtain ⟨holds, c, here⟩ := held slot (List.mem_cons_of_mem _ member)
      exact ⟨holds.retained (regrouped.redrawn.retains _), c, regrouped.nodeAt.mpr here⟩) done
    refine ⟨inv₂, progress.trans rest, fun slot' member n here' => ?_⟩
    rcases List.mem_cons.mp member with rfl | member
    · cases here.symm.trans here'
      exact rest.visited c inside
    · exact others slot' member n (regrouped.nodeAt.mpr here')

variable (attains : Attains quiet meets Inv Met)

include attains

/-- A sweep achieves something for everything at and below a slot, unless it was there before. -/
theorem sweepWithin (inv : Inv w) (holds : w.session.plan.HoldsReachable slot)
    (here : w.session.plan.nodeAt slot = .ok id) (done : sweepWithin true fuel w slot = .ok w')
    (calm : quiet = true → w'.changed = false) : Inv w' ∧ w.Progress Met w' ∧ id ∈ w'.visited := by
  induction fuel generalizing w w' slot id with
  | zero => cases done
  | succ fuel ih =>
    obtain ⟨w₁, id', w₂, before, here', swept, after⟩ := sweepWithin_cases done
    have calm₂ := fun isQuiet => unchanged_apply after (calm isQuiet)
    have calm₁ : quiet = true → w₁.changed = false := by
      intro isQuiet
      rcases swept with ⟨_, rfl⟩ | ⟨_, swept⟩
      · exact calm₂ isQuiet
      · exact unchanged_foldlM (w := { w₁ with visited := id' :: w₁.visited }) swept (calm₂ isQuiet)
    obtain ⟨inv₁, regrouped₁, kept₁, met₁⟩ := attains.offer inv holds here before calm₁
    have first : w.Progress Met w₁ := .of_offer regrouped₁ (visited_apply before).1 kept₁
    cases here'.symm.trans (regrouped₁.nodeAt.mpr here)
    have holds₁ := holds.retained (regrouped₁.redrawn.retains _)
    suffices rest : Inv w' ∧ w₁.Progress Met w' ∧ id ∈ w'.visited from
      ⟨rest.1, first.trans rest.2.1, rest.2.2⟩
    rcases swept with ⟨visited, rfl⟩ | ⟨_, children⟩
    · obtain ⟨inv', regrouped, kept, _⟩ := attains.offer inv₁ holds₁ here' after calm
      have visited' := (visited_apply after).1
      exact ⟨inv', .of_offer regrouped visited' kept, visited' ▸ visited⟩
    · obtain ⟨inv₂, below, inside⟩ := foldlM (w := { w₁ with visited := id :: w₁.visited }) ih
        (attains.visit inv₁) (fun slot member => by
          obtain ⟨c, _, holdsChild⟩ := Plan.exists_child_of_slot member
          refine ⟨fun holder held => ?_, c, holdsChild⟩
          cases (holder?_of_mem_childSlots member).symm.trans held
          exact holds₁.reaches here') children calm₂
      have regrouped := below.regrouped
      obtain ⟨inv', regrouped', kept, met⟩ := attains.offer inv₂
        (holds₁.retained (regrouped.redrawn.retains _)) (regrouped.nodeAt.mpr here') after calm
      have visited' := (visited_apply after).1
      have progress := below.trans (.of_offer regrouped' visited' kept)
      have met' : Met w'.session id := by
        cases meets with
        | before => exact progress.kept id (met₁ rfl)
        | after => exact met rfl
      refine ⟨inv', progress.enter met' fun c child => ?_, progress.visited id List.mem_cons_self⟩
      have child : c ∈ w₁.session.plan.children id := progress.regrouped.redrawn.mem_children.mp child
      obtain ⟨slot', isSlot, holdsChild⟩ := Plan.exists_childSlot child
      exact visited'.symm ▸ inside slot' isSlot c holdsChild

/-- A sweep from the root achieves something for all reachable nodes. -/
theorem sweep (inv : Inv w) (new : w.visited = []) (done : Sweep.sweepWithin true fuel w .root = .ok w')
    (calm : quiet = true → w'.changed = false) :
    Inv w' ∧ w.session.plan.Regrouped w'.session.plan ∧
      ∀ n, w'.session.plan.Reaches n → Met w'.session n := by
  obtain ⟨inv', progress, inside⟩ := attains.sweepWithin inv (fun _ impossible => by cases impossible)
    rfl done calm
  have unvisited : ∀ n, n ∉ w.visited := by
    rw [new]
    exact fun _ => List.not_mem_nil
  have root : w'.session.plan.root ∈ w'.visited := by
    rw [progress.regrouped.root]
    exact inside
  refine ⟨inv', progress.regrouped, fun n reached => progress.met n ?_ (unvisited n)⟩
  exact Plan.Below.of_closed root (fun n member => progress.closed n member (unvisited n)) reached

end Attains

/-! ## Sweeps that succeed -/

theorem sweepWithin_of (before : w.apply .before slot = .ok w₁) (here : w₁.session.plan.nodeAt slot = .ok id)
    (swept : id ∈ w₁.visited ∧ w₂ = w₁ ∨ id ∉ w₁.visited ∧ (w₁.session.plan.childSlots id).foldlM
      (sweepWithin true fuel) { w₁ with visited := id :: w₁.visited } = .ok w₂)
    (after : w₂.apply .after slot = .ok w') : sweepWithin true (fuel + 1) w slot = .ok w' := by
  refine bind_ok_iff.mpr ⟨w₁, before, bind_ok_iff.mpr ⟨id, here, ?_⟩⟩
  rcases swept with ⟨visited, rfl⟩ | ⟨new, children⟩
  · rw [if_pos visited]
    exact after
  · rw [if_neg new]
    exact bind_ok_iff.mpr ⟨w₂, children, after⟩

/-- A part of a sweep that leaves the slots and what is above a node. -/
structure Stays (top : Option NodeId) (w w' : Sweep) : Prop where
  retains : Plan.Retains top w.session.plan w'.session.plan
  slots : ∀ slot c, w.session.plan.nodeAt slot = .ok c → ∃ c', w'.session.plan.nodeAt slot = .ok c'

theorem Stays.trans {top : Option NodeId} (first : w.Stays top w₁) (second : w₁.Stays top w₂) :
    w.Stays top w₂ :=
  ⟨first.retains.trans second.retains, fun slot c here => by
    obtain ⟨c', here⟩ := first.slots slot c here
    exact second.slots slot c' here⟩

theorem Stays.of_plan_eq {top : Option NodeId} (same : w'.session.plan = w.session.plan) : w.Stays top w' :=
  ⟨by rw [same]; exact .refl _ _, fun slot c here => ⟨c, same ▸ here⟩⟩

/-- A sweep goes down far enough if all offers succeed and every node has more fuel than its rank. -/
theorem exists_sweepWithin (Inv : Sweep → Prop) {rank : NodeId → Nat}
    (visit : ∀ w id, Inv w → Inv { w with visited := id :: w.visited })
    (falls : ∀ w, Inv w → w.session.plan.Descends rank)
    (offer : ∀ w hook slot id, Inv w → w.session.plan.HoldsReachable slot →
      w.session.plan.nodeAt slot = .ok id → ∃ w', w.apply hook slot = .ok w' ∧ Inv w' ∧
        w.Stays slot.holder? w' ∧ w'.session.plan.nodeAt slot = .ok id)
    (inv : Inv w) (holds : w.session.plan.HoldsReachable slot) (here : w.session.plan.nodeAt slot = .ok id)
    (enough : rank id < fuel) :
    ∃ w', sweepWithin true fuel w slot = .ok w' ∧ Inv w' ∧ w.Stays slot.holder? w' := by
  induction fuel generalizing w slot id with
  | zero => omega
  | succ fuel ih =>
    obtain ⟨w₁, before, inv₁, stays₁, here₁⟩ := offer w .before slot id inv holds here
    have holds₁ := holds.retained stays₁.retains
    have reached := holds₁.reaches here₁
    have child : ∀ slot ∈ w₁.session.plan.childSlots id, ∀ w, Inv w ∧ w₁.Stays (some id) w →
        ∃ w', sweepWithin true fuel w slot = .ok w' ∧ Inv w' ∧ w₁.Stays (some id) w' := by
      intro slot isChild w ⟨inv, stays⟩
      obtain ⟨c, _, holdsChild⟩ := Plan.exists_child_of_slot isChild
      obtain ⟨c', holdsChild⟩ := stays.slots slot c holdsChild
      have held := holder?_of_mem_childSlots isChild
      have reached' := stays.retains.reaches reached
      have lower := falls w inv id reached' c' (Plan.mem_children_of_nodeAt holdsChild held)
      have holds' : w.session.plan.HoldsReachable slot := by
        intro holder isHolder
        cases held.symm.trans isHolder
        exact reached'
      obtain ⟨w', done, inv', stays'⟩ := ih inv holds' holdsChild (by omega)
      exact ⟨w', done, inv', stays.trans (held ▸ stays')⟩
    obtain ⟨w₂, swept, inv₂, stays₂⟩ : ∃ w₂, (id ∈ w₁.visited ∧ w₂ = w₁ ∨ id ∉ w₁.visited ∧
        (w₁.session.plan.childSlots id).foldlM (sweepWithin true fuel)
          { w₁ with visited := id :: w₁.visited } = .ok w₂) ∧ Inv w₂ ∧ w₁.Stays (some id) w₂ := by
      by_cases visited : id ∈ w₁.visited
      · exact ⟨w₁, .inl ⟨visited, rfl⟩, inv₁, .of_plan_eq rfl⟩
      · obtain ⟨w₂, swept, kept⟩ := exists_foldlM_ok (fun w => Inv w ∧ w₁.Stays (some id) w) child
          ⟨visit w₁ id inv₁, .of_plan_eq rfl⟩
        exact ⟨w₂, .inr ⟨visited, swept⟩, kept⟩
    have upper : w₁.Stays slot.holder? w₂ := ⟨stays₂.retains.lift here₁, stays₂.slots⟩
    obtain ⟨id₂, here₂⟩ := upper.slots slot id here₁
    obtain ⟨w₃, after, inv₃, stays₃, _⟩ :=
      offer w₂ .after slot id₂ inv₂ (holds₁.retained upper.retains) here₂
    exact ⟨w₃, sweepWithin_of before here₁ swept after, inv₃, (stays₁.trans upper).trans stays₃⟩

end Sweep

end QueryOptimizer
