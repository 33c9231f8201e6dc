import Mathlib
import QueryOptimizer.Proofs.Operator.Schema
import QueryOptimizer.Proofs.Plan.Schema

/-! # Replaced children

When the node in a slot is replaced, the children of all nodes stay the same, but for the one that is
replaced.
-/

namespace QueryOptimizer.Plan

/-- Whether a node reads the tuples of a nested source of the owner, through inputs alone. -/
inductive Reads (plan : Plan) (owner : NodeId) : NodeId → Prop where
  | source {id : NodeId} (operator : plan.operator id = .nestedSource owner) : Reads plan owner id
  | input {id input : NodeId} (member : input ∈ plan.inputs id) (reads : Reads plan owner input) :
      Reads plan owner id

variable {plan plan' : Plan} {slot : Slot} {old new n : NodeId}

section Pairs

variable {α β : Type} {R : α → β → Prop} {ids : List α} {ids' : List β} {x : α} {y : β}

theorem forall₂_of_mem {S : α → β → Prop} (pairs : List.Forall₂ R ids ids')
    (each : ∀ x ∈ ids, ∀ y ∈ ids', R x y → S x y) : List.Forall₂ S ids ids' :=
  List.forall₂_iff_zip.mpr ⟨pairs.length_eq, fun pair =>
    each _ (List.of_mem_zip pair).1 _ (List.of_mem_zip pair).2 (List.forall₂_zip pairs pair)⟩

theorem exists_replaced (replaced : List.Forall₂ R ids ids') (member : y ∈ ids') :
    ∃ x ∈ ids, R x y := by
  induction replaced with
  | nil => cases member
  | cons first _ ih =>
    rcases List.mem_cons.mp member with rfl | member
    · exact ⟨_, List.mem_cons_self, first⟩
    · obtain ⟨x, inside, replaced⟩ := ih member
      exact ⟨x, List.mem_cons_of_mem _ inside, replaced⟩

theorem exists_replacing (replaced : List.Forall₂ R ids ids') (member : x ∈ ids) :
    ∃ y ∈ ids', R x y :=
  exists_replaced (R := flip R) replaced.flip member

theorem getElem?_replaced {index : Nat} (replaced : List.Forall₂ R ids ids')
    (found : ids[index]? = some x) : ∃ y, ids'[index]? = some y ∧ R x y := by
  induction replaced generalizing index with
  | nil => cases found
  | cons first _ ih =>
    cases index with
    | zero =>
      cases found
      exact ⟨_, rfl, first⟩
    | succ index => exact ih found

theorem getElem?_replacing {index : Nat} (replaced : List.Forall₂ R ids ids')
    (found : ids'[index]? = some y) : ∃ x, ids[index]? = some x ∧ R x y :=
  getElem?_replaced (R := flip R) replaced.flip found

end Pairs

theorem forall₂_flatten {nested nested' : NestedPlans}
    (replaced : List.Forall₂ (List.Forall₂ (Replaces old new)) nested nested') :
    List.Forall₂ (Replaces old new) nested.flatten nested'.flatten := by
  induction replaced with
  | nil => exact .nil
  | cons first _ ih => exact List.rel_append first ih

theorem Rewired.nestedRoots (rewired : plan.Rewired slot old new plan') (n : NodeId) :
    List.Forall₂ (Replaces old new) (plan.nestedRoots n) (plan'.nestedRoots n) := by
  obtain ⟨nested, changed, replaced⟩ := rewired.operator n
  unfold Plan.nestedRoots
  rw [changed]
  cases op : plan.operator n with
  | groupBy => rw [op] at replaced; exact forall₂_flatten replaced
  | subplan => rw [op] at replaced; exact forall₂_flatten replaced
  | _ => exact .nil

theorem Rewired.child (rewired : plan.Rewired slot old new plan') {c : NodeId}
    (member : c ∈ plan'.children n) :
    c ∈ plan.children n ∨ slot.holder? = some n ∧ old ∈ plan.children n ∧ c = new := by
  by_cases holds : slot.holder? = some n
  · rcases List.mem_append.mp member with member | member
    · obtain ⟨x, inside, rfl | ⟨rfl, rfl⟩⟩ := exists_replaced (rewired.inputs n) member
      · exact .inl (List.mem_append_left _ inside)
      · exact .inr ⟨holds, List.mem_append_left _ inside, rfl⟩
    · obtain ⟨x, inside, rfl | ⟨rfl, rfl⟩⟩ := exists_replaced (rewired.nestedRoots n) member
      · exact .inl (List.mem_append_right _ inside)
      · exact .inr ⟨holds, List.mem_append_right _ inside, rfl⟩
  · rw [children_congr (rewired.others n holds)] at member
    exact .inl member

theorem Rewired.nestedSource_iff (rewired : plan.Rewired slot old new plan') {owner : NodeId} :
    plan'.operator n = .nestedSource owner ↔ plan.operator n = .nestedSource owner := by
  obtain ⟨nested, changed, _⟩ := rewired.operator n
  rw [changed]
  cases plan.operator n <;> simp [Operator.mapNested]

end QueryOptimizer.Plan
