import Mathlib
import QueryOptimizer.Derivation.Facts
import QueryOptimizer.Proofs.Facts.Closure

/-! # Keys that stay

Of the keys of a group-by, those stay that the others do not determine, and at least one. Tuples that
agree on the keys that stay agree on all keys. Among the keys that stayed none is determined by the
others, so that splitting them again moves none.
-/

namespace QueryOptimizer.Facts

variable {facts : Facts} {kept rest keys : List (Var × Expr)}

/-- The variables that entries pass through. -/
def passedVars (entries : List (Var × Expr)) : List Var := entries.filterMap fun entry => entry.2.asVar?

/-- Whether the other keys do not determine a key. A key without others is needed too. -/
def Needs (facts : Facts) (key : Var × Expr) (others : List (Var × Expr)) : Prop :=
  ∀ v, key.2.asVar? = some v → others = [] ∨ v ∉ facts.closure (passedVars others)

theorem splitKeys_cons (facts : Facts) (kept rest : List (Var × Expr)) (key : Var × Expr) :
    facts.Needs key (kept ++ rest) ∧
        facts.splitKeys kept (key :: rest) = facts.splitKeys (kept ++ [key]) rest ∨
      ¬ facts.Needs key (kept ++ rest) ∧ facts.splitKeys kept (key :: rest) =
        ((facts.splitKeys kept rest).1, key :: (facts.splitKeys kept rest).2) := by
  rw [splitKeys]
  split
  · rename_i expression
    refine .inl ⟨fun v isVar => ?_, rfl⟩
    rw [expression] at isVar
    cases isVar
  · rename_i v isVar
    dsimp only
    split
    · rename_i determined
      simp only [Bool.and_eq_true, Bool.not_eq_true', List.isEmpty_eq_false_iff,
        decide_eq_true_eq] at determined
      exact .inr ⟨fun needs => (needs v isVar).elim determined.1 fun outside => outside determined.2, rfl⟩
    · rename_i undetermined
      refine .inl ⟨fun w isVar' => ?_, rfl⟩
      cases isVar.symm.trans isVar'
      by_cases none : kept ++ rest = []
      · exact .inl none
      · refine .inr fun inside => undetermined ?_
        simp only [Bool.and_eq_true, Bool.not_eq_true', List.isEmpty_eq_false_iff,
          decide_eq_true_eq]
        exact ⟨none, inside⟩

theorem Needs.fewer {key : Var × Expr} {others fewer : List (Var × Expr)}
    (needs : facts.Needs key others) (disjoint : facts.equivalence.Disjoint) (some : others ≠ [])
    (sublist : fewer.Sublist others) : facts.Needs key fewer := by
  intro v isVar
  refine .inr fun inside => ?_
  refine ((needs v isVar).resolve_left some) (closure_mono disjoint (fun w member => ?_) v inside)
  exact (sublist.filterMap _).subset member

/-- Keys that are all needed stay. -/
theorem splitKeys_of_needs (needs : ∀ before key after, rest = before ++ key :: after →
      facts.Needs key (kept ++ before ++ after)) : facts.splitKeys kept rest = (kept ++ rest, []) := by
  induction rest generalizing kept with
  | nil => rw [splitKeys, List.append_nil]
  | cons key rest ih =>
    have stay : facts.splitKeys (kept ++ [key]) rest = (kept ++ key :: rest, []) := by
      rw [ih fun before key' after split => ?_, List.append_assoc, List.singleton_append]
      rw [List.append_assoc kept [key] before, List.singleton_append]
      exact needs (key :: before) key' after (by rw [split, List.cons_append])
    rcases facts.splitKeys_cons kept rest key with ⟨_, same⟩ | ⟨unneeded, _⟩
    · exact same.trans stay
    · exact absurd (by simpa using needs [] key rest rfl) unneeded

/-- The keys that stay are all needed. -/
theorem needs_of_splitKeys (disjoint : facts.equivalence.Disjoint)
    (needs : ∀ before key after, kept = before ++ key :: after →
      facts.Needs key (before ++ after ++ rest)) :
    ∀ before key after, (facts.splitKeys kept rest).1 = before ++ key :: after →
      facts.Needs key (before ++ after) := by
  induction rest generalizing kept with
  | nil =>
    intro before key after split
    simpa using needs before key after split
  | cons key rest ih =>
    rcases facts.splitKeys_cons kept rest key with ⟨needed, same⟩ | ⟨_, same⟩
    · rw [same]
      refine ih fun before key' after split => ?_
      rcases List.eq_nil_or_concat after with rfl | ⟨after, last, rfl⟩
      · obtain ⟨rfl, last⟩ := List.append_inj' split rfl
        cases last
        simpa using needed
      · rw [List.concat_eq_append, ← List.cons_append, ← List.append_assoc] at split
        obtain ⟨rfl, last⟩ := List.append_inj' split rfl
        cases last
        simpa using needs before key' after rfl
    · rw [same]
      refine ih fun before key' after split => ?_
      refine (needs before key' after split).fewer disjoint (by simp) ?_
      exact (List.Sublist.refl _).append (List.sublist_cons_self key rest)

/-- Keys that stayed stay again. -/
theorem splitKeys_again (disjoint : facts.equivalence.Disjoint) (keys : List (Var × Expr)) :
    (facts.splitKeys [] (facts.splitKeys [] keys).1).2 = [] := by
  rw [splitKeys_of_needs fun before key after split => ?_]
  exact needs_of_splitKeys disjoint (by simp) before key after split

theorem exists_of_not_needs {key : Var × Expr} {others : List (Var × Expr)}
    (unneeded : ¬ facts.Needs key others) :
    ∃ v, key.2.asVar? = some v ∧ others ≠ [] ∧ v ∈ facts.closure (passedVars others) := by
  unfold Needs at unneeded
  push Not at unneeded
  exact unneeded

/-- Where there are keys, one stays. -/
theorem splitKeys_ne_nil (some : kept ++ rest ≠ []) : (facts.splitKeys kept rest).1 ≠ [] := by
  induction rest generalizing kept with
  | nil => simpa [splitKeys] using some
  | cons key rest ih =>
    rcases facts.splitKeys_cons kept rest key with ⟨_, same⟩ | ⟨unneeded, same⟩
    · rw [same]
      exact ih (by simp)
    · obtain ⟨_, _, others, _⟩ := exists_of_not_needs unneeded
      rw [same]
      exact ih others

/-- Only variables are moved. -/
theorem isVar_of_splitKeys : ∀ key ∈ (facts.splitKeys kept rest).2, ∃ v, key.2.asVar? = some v := by
  induction rest generalizing kept with
  | nil => simp [splitKeys]
  | cons key rest ih =>
    rcases facts.splitKeys_cons kept rest key with ⟨_, same⟩ | ⟨unneeded, same⟩
    · rw [same]
      exact ih
    · obtain ⟨v, isVar, _⟩ := exists_of_not_needs unneeded
      rw [same]
      exact List.forall_mem_cons.mpr ⟨⟨v, isVar⟩, ih⟩

theorem splitKeys_of_none_moved (none : (facts.splitKeys kept rest).2 = []) :
    (facts.splitKeys kept rest).1 = kept ++ rest := by
  induction rest generalizing kept with
  | nil => rw [splitKeys, List.append_nil]
  | cons key rest ih =>
    rcases facts.splitKeys_cons kept rest key with ⟨_, same⟩ | ⟨_, same⟩
    · rw [same] at none ⊢
      rw [ih none, List.append_assoc, List.singleton_append]
    · rw [same] at none
      cases none

/-- What holds of the keys that stay holds of all keys, if it holds of a variable key whenever it
    holds of variables that determine it. -/
theorem forall_of_splitKeys {Same : Var × Expr → Prop} {Agree : Var → Prop}
    (closed : ∀ vs : List Var, (∀ v ∈ vs, Agree v) → ∀ v ∈ facts.closure vs, Agree v)
    (passed : ∀ key ∈ kept ++ rest, ∀ v, key.2.asVar? = some v → (Same key ↔ Agree v))
    (stay : ∀ key ∈ (facts.splitKeys kept rest).1, Same key) : ∀ key ∈ kept ++ rest, Same key := by
  induction rest generalizing kept with
  | nil => simpa [splitKeys] using stay
  | cons key rest ih =>
    rcases facts.splitKeys_cons kept rest key with ⟨_, same⟩ | ⟨unneeded, same⟩
    · have shape : kept ++ key :: rest = (kept ++ [key]) ++ rest := by simp
      rw [same] at stay
      rw [shape] at passed ⊢
      exact ih passed stay
    · -- The keys around a moved one may themselves move later, but all of them agree by induction.
      obtain ⟨v, isVar, _, determined⟩ := exists_of_not_needs unneeded
      rw [same] at stay
      have fewer : ∀ other ∈ kept ++ rest, other ∈ kept ++ key :: rest := fun other member => by
        rw [List.mem_append, List.mem_cons]
        exact (List.mem_append.mp member).imp_right .inr
      have others := ih (fun other member => passed other (fewer other member)) stay
      have here : Same key := by
        refine (passed key (by simp) v isVar).mpr (closed _ (fun w member => ?_) v determined)
        obtain ⟨other, member, isVar'⟩ := List.mem_filterMap.mp member
        exact (passed other (fewer other member) w isVar').mp (others other member)
      intro other member
      rcases List.mem_append.mp member with before | after
      · exact others other (List.mem_append_left _ before)
      · rcases List.mem_cons.mp after with rfl | after
        · exact here
        · exact others other (List.mem_append_right _ after)

end QueryOptimizer.Facts
