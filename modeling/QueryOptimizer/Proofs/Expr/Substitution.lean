import Mathlib
import QueryOptimizer.Proofs.Transform.Inlining

/-! # Values after a substitution

An expression has a value in any domain, once it is known what constants, functions and variables
stand for. To put an expression in place of a variable is to give the variable its value, and to
rename variables is to look up their new names.
-/

namespace QueryOptimizer

/-- The first occurrences of variables are kept in their order. -/
theorem pairwise_appendNew {before others seen : List Var} (same : ∀ v, v ∈ seen ↔ v ∈ before)
    (ordered : seen.Pairwise fun v w => (before ++ others).idxOf v < (before ++ others).idxOf w) :
    (appendNew seen others).Pairwise
      fun v w => (before ++ others).idxOf v < (before ++ others).idxOf w := by
  induction others generalizing before seen with
  | nil => exact ordered
  | cons x others ih =>
    rw [List.append_cons] at ordered ⊢
    by_cases listed : x ∈ seen
    · rw [show appendNew seen (x :: others) = appendNew seen others by simp [appendNew, listed]]
      refine ih (fun v => ?_) ordered
      rw [same, List.mem_append, List.mem_singleton]
      exact ⟨.inl, fun known => known.elim id fun isX => (same v).mp (isX ▸ listed)⟩
    · rw [show appendNew seen (x :: others) = appendNew (seen ++ [x]) others by simp [appendNew, listed]]
      refine ih (fun v => by simp [same]) (List.pairwise_append.mpr
        ⟨ordered, List.pairwise_singleton _ x, fun v known w isX => ?_⟩)
      cases List.mem_singleton.mp isX
      have here : (before ++ [x] ++ others).idxOf x = before.length := by
        rw [List.append_assoc, List.idxOf_append_of_notMem fun old => listed ((same x).mpr old)]
        simp
      rw [here, List.append_assoc, List.idxOf_append_of_mem ((same v).mp known)]
      exact List.idxOf_lt_length_of_mem ((same v).mp known)

/-- What constants and functions stand for, in any domain of values. -/
structure Meaning (α : Type*) where
  const : Scalar → α
  call : Function → List α → α

namespace Expr

variable {α : Type*}

mutual
/-- The value of an expression, given those of the variables. -/
def value (meaning : Meaning α) (s : Var → α) : Expr → α
  | const c => meaning.const c
  | var v => s v
  | call f args _ => meaning.call f (values meaning s args)

def values (meaning : Meaning α) (s : Var → α) : List Expr → List α
  | [] => []
  | e :: es => value meaning s e :: values meaning s es
end

mutual
theorem value_substitute (meaning : Meaning α) (s : Var → α) (v : Var) (t e : Expr) :
    (e.substitute v t).value meaning s = e.value meaning (Function.update s v (t.value meaning s)) := by
  cases e with
  | const c => rfl
  | var w =>
    by_cases same : w = v
    · rw [substitute, if_pos same, value, same, Function.update_self]
    · rw [substitute, if_neg same, value, value, Function.update_of_ne same]
  | call f args hints => rw [substitute, value, value, values_substituteList meaning s v t args]

theorem values_substituteList (meaning : Meaning α) (s : Var → α) (v : Var) (t : Expr) (es : List Expr) :
    values meaning s (substituteList es v t) =
      values meaning (Function.update s v (t.value meaning s)) es := by
  cases es with
  | nil => rfl
  | cons e es =>
    rw [substituteList, values, values, value_substitute meaning s v t e,
      values_substituteList meaning s v t es]
end

mutual
theorem value_rename (meaning : Meaning α) (s : Var → α) (renames : Renaming) (e : Expr) :
    (e.rename renames).value meaning s = e.value meaning fun v => s (renames.apply v) := by
  cases e with
  | const c => rfl
  | var v => rfl
  | call f args hints => rw [rename, value, value, values_renameList meaning s renames args]

theorem values_renameList (meaning : Meaning α) (s : Var → α) (renames : Renaming) (es : List Expr) :
    values meaning s (renameList renames es) = values meaning (fun v => s (renames.apply v)) es := by
  cases es with
  | nil => rfl
  | cons e es =>
    rw [renameList, values, values, value_rename meaning s renames e,
      values_renameList meaning s renames es]
end

mutual
theorem substitute_eq_self {v : Var} {t e : Expr} (absent : v ∉ e.occurrences) : e.substitute v t = e := by
  cases e with
  | const c => rfl
  | var w => exact if_neg fun same : w = v => absent (same ▸ List.mem_cons_self)
  | call f args hints => rw [substitute, substituteList_eq_self absent]

theorem substituteList_eq_self {v : Var} {t : Expr} {es : List Expr} (absent : v ∉ occurrencesList es) :
    substituteList es v t = es := by
  cases es with
  | nil => rfl
  | cons e es =>
    rw [occurrencesList, List.mem_append, not_or] at absent
    rw [substituteList, substitute_eq_self absent.1, substituteList_eq_self absent.2]
end

mutual
theorem rename_eq_self {renames : Renaming} {e : Expr}
    (fixed : ∀ v ∈ e.occurrences, renames.apply v = v) : e.rename renames = e := by
  cases e with
  | const c => rfl
  | var v => exact congrArg var (fixed v List.mem_cons_self)
  | call f args hints => rw [rename, renameList_eq_self fixed]

theorem renameList_eq_self {renames : Renaming} {es : List Expr}
    (fixed : ∀ v ∈ occurrencesList es, renames.apply v = v) : renameList renames es = es := by
  cases es with
  | nil => rfl
  | cons e es =>
    rw [renameList, rename_eq_self fun v member => fixed v (List.mem_append_left _ member),
      renameList_eq_self fun v member => fixed v (List.mem_append_right _ member)]
end

/-- A renaming changes an expression exactly if it gives one of its variables another name. -/
theorem isRenamedBy_iff {e : Expr} {renames : Renaming} :
    e.isRenamedBy renames = true ↔ e.rename renames ≠ e := by
  have fixed : e.rename renames = e ↔ ∀ v ∈ e.occurrences, renames.apply v = v := by
    refine ⟨fun same => List.map_inj_left.mp ?_, rename_eq_self⟩
    rw [← occurrences_rename, same, List.map_id']
  rw [ne_eq, fixed, isRenamedBy, List.any_eq_true]
  simp

/-- In any domain and any environment, putting an expression in place of a variable gives the variable
    the value of the expression, and renaming looks up the new names, all at once. The answers
    whether anything changes are exact, and the variables of an expression are listed once each, by
    their first occurrences. -/
theorem substitution_respects_values (e t : Expr) (v : Var) (renames : Renaming) :
    (∀ (α : Type*) (meaning : Meaning α) (s : Var → α),
      (e.substitute v t).value meaning s = e.value meaning (Function.update s v (t.value meaning s)) ∧
      (e.rename renames).value meaning s =
        e.value meaning fun x => s ((renames.find? x).getD x)) ∧
    (e.mentions v = true ↔ v ∈ e.usedVars) ∧ (e.mentions v = false → e.substitute v t = e) ∧
    (e.isRenamedBy renames = true ↔ e.rename renames ≠ e) ∧
    e.usedVars.Nodup ∧ (∀ x, x ∈ e.usedVars ↔ x ∈ e.occurrences) ∧
    e.usedVars.Pairwise fun x y => e.occurrences.idxOf x < e.occurrences.idxOf y := by
  have mentions : e.mentions v = true ↔ v ∈ e.occurrences := by simp [Expr.mentions]
  refine ⟨fun α meaning s => ⟨value_substitute meaning s v t e, value_rename meaning s renames e⟩,
    mentions.trans mem_distinct.symm, fun unmentioned => substitute_eq_self fun occurs => ?_,
    isRenamedBy_iff, nodup_distinct _, fun x => mem_distinct,
    pairwise_appendNew (fun v => Iff.rfl) List.Pairwise.nil⟩
  exact Bool.noConfusion (unmentioned.symm.trans (mentions.mpr occurs))

end Expr

end QueryOptimizer
