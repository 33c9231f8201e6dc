import Mathlib
import QueryOptimizer.Variable

/-! # Lists of variables -/

namespace QueryOptimizer

theorem mem_appendNew {vs others : List Var} {v : Var} :
    v ∈ appendNew vs others ↔ v ∈ vs ∨ v ∈ others := by
  induction others generalizing vs with
  | nil => simp [appendNew]
  | cons w others ih =>
    have step : appendNew vs (w :: others) =
        appendNew (if w ∈ vs then vs else vs ++ [w]) others := rfl
    rw [step, ih]
    by_cases listed : w ∈ vs
    · rw [if_pos listed, List.mem_cons]
      constructor
      · rintro (old | new)
        · exact .inl old
        · exact .inr (.inr new)
      · rintro (old | rfl | new)
        · exact .inl old
        · exact .inl listed
        · exact .inr new
    · rw [if_neg listed, List.mem_append, List.mem_singleton, List.mem_cons, or_assoc]

theorem nodup_appendNew {vs : List Var} (others : List Var) (once : vs.Nodup) :
    (appendNew vs others).Nodup := by
  induction others generalizing vs with
  | nil => exact once
  | cons w others ih =>
    by_cases listed : w ∈ vs
    · simpa [appendNew, listed] using ih once
    · have extended : (vs ++ [w]).Nodup :=
        List.nodup_append.mpr ⟨once, List.nodup_singleton w, by
          rintro a ha b hb rfl
          exact listed (List.mem_singleton.mp hb ▸ ha)⟩
      simpa [appendNew, listed] using ih extended

@[simp] theorem mem_distinct {vs : List Var} {v : Var} : v ∈ distinct vs ↔ v ∈ vs := by
  simp [distinct, mem_appendNew]

theorem nodup_distinct (vs : List Var) : (distinct vs).Nodup :=
  nodup_appendNew vs List.nodup_nil

theorem VarSet.ext {s t : VarSet} (same : ∀ v, v ∈ s ↔ v ∈ t) : s = t := by
  cases s with
  | mk left ascending =>
    cases t with
    | mk right ascending' =>
      have equal : left = right := ascending.eq_of_mem_iff ascending' same
      subst equal
      rfl

theorem VarSet.isEmpty_iff {s : VarSet} : s.isEmpty = true ↔ ∀ v, v ∉ s := by
  rw [isEmpty, List.isEmpty_iff, List.eq_nil_iff_forall_not_mem]
  rfl

theorem VarSet.isEmpty_erase {s : VarSet} {v : Var} (several : 1 < s.size) :
    (s.erase v).isEmpty = false := by
  rw [Bool.eq_false_iff, ne_eq, isEmpty_iff]
  intro none
  have only : ∀ u ∈ s.toList, u = v := by
    intro u inside
    by_contra other
    exact none u (mem_erase.mpr ⟨inside, other⟩)
  -- Of two members one is smaller.
  match listed : s.toList, s.ascending with
  | [], _ => simp [size, listed] at several
  | [_], _ => simp [size, listed] at several
  | a :: b :: _, ascending =>
    rw [listed] at only
    have less : a < b := (List.pairwise_cons.mp ascending).1 b List.mem_cons_self
    rw [only a List.mem_cons_self, only b (List.mem_cons_of_mem _ List.mem_cons_self)] at less
    exact absurd less (Nat.lt_irrefl v)

end QueryOptimizer
