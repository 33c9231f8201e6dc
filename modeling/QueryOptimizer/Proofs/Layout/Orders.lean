import Mathlib
import QueryOptimizer.Implementation.Enforcement
import QueryOptimizer.Proofs.Facts.Closure

/-! # Columns that determine the same

Lists of columns with the same closure determine the same. In a grouping the columns that the others
determine are left out, and groupings are the same if their columns determine the same.
-/

namespace QueryOptimizer

namespace Facts

variable {facts : Facts} {vs ws us : List Var} {v : Var}

variable (disjoint : facts.equivalence.Disjoint)

include disjoint

theorem closure_congr (left : ∀ v ∈ vs, v ∈ facts.closure ws) (right : ∀ w ∈ ws, w ∈ facts.closure vs) :
    facts.closure vs = facts.closure ws :=
  VarSet.ext fun _ => ⟨closure_subset disjoint left _, closure_subset disjoint right _⟩

theorem closure_append {vs' us' : List Var} (left : facts.closure vs = facts.closure vs')
    (right : facts.closure us = facts.closure us') :
    facts.closure (vs ++ us) = facts.closure (vs' ++ us') := by
  have part : ∀ {vs ws bound : List Var}, facts.closure vs = facts.closure ws →
      (∀ w ∈ ws, w ∈ bound) → ∀ v ∈ vs, v ∈ facts.closure bound := by
    intro vs ws bound same inside v given
    refine closure_mono disjoint inside v ?_
    rw [← same]
    exact mem_closure_self given
  refine closure_congr disjoint ?_ ?_ <;> intro v given <;>
    rcases List.mem_append.mp given with given | given
  · exact part left (by simp +contextual) v given
  · exact part right (by simp +contextual) v given
  · exact part left.symm (by simp +contextual) v given
  · exact part right.symm (by simp +contextual) v given

theorem closure_append_of_mem (known : v ∈ facts.closure vs) :
    facts.closure (vs ++ [v]) = facts.closure vs := by
  refine closure_congr disjoint ?_ fun w h => mem_closure_self (List.mem_append_left _ h)
  intro w inside
  rcases List.mem_append.mp inside with given | given
  · exact mem_closure_self given
  · rwa [List.mem_singleton.mp given]

theorem representativeVar_mem_closure :
    facts.equivalence.representativeVar v ∈ facts.closure vs ↔ v ∈ facts.closure vs := by
  have equivalent := facts.equivalence.representativeVar_mem v
  constructor
  · exact fun h => (closure_closed disjoint vs).equivalents _ _ h (disjoint.mem_symm equivalent)
  · exact fun h => (closure_closed disjoint vs).equivalents _ _ h equivalent

/-- A column and its representative determine each other. -/
theorem closure_representativeVar (v : Var) :
    facts.closure [facts.equivalence.representativeVar v] = facts.closure [v] := by
  refine closure_congr disjoint ?_ ?_ <;> intro w given <;> rw [List.mem_singleton.mp given]
  · exact (representativeVar_mem_closure disjoint).mpr (mem_closure_self List.mem_cons_self)
  · exact (representativeVar_mem_closure disjoint).mp (mem_closure_self List.mem_cons_self)

/-- An order is left out exactly if the columns before it determine its column. -/
theorem isKnown_iff :
    (facts.equivalence.isConstant v ||
      decide (facts.equivalence.representativeVar v ∈ facts.closure vs)) = true ↔
      v ∈ facts.closure vs := by
  simp only [Bool.or_eq_true, decide_eq_true_eq, representativeVar_mem_closure disjoint]
  exact or_iff_right_of_imp ((closure_closed disjoint vs).constants v)

end Facts

namespace LocalProperty

variable {facts : Facts} {preceding : List Var} {cs ds ks : List OrderColumn} {G R : VarSet}

open Facts

/-- The representatives of the columns that are not constant. -/
def variableColumns (facts : Facts) (G : VarSet) : VarSet :=
  .ofList ((G.toList.filter fun v => !facts.equivalence.isConstant v).map
    facts.equivalence.representativeVar)

theorem mem_variableColumns {v : Var} : v ∈ variableColumns facts G ↔
    ∃ w ∈ G, facts.equivalence.isConstant w = false ∧ facts.equivalence.representativeVar w = v := by
  simp [variableColumns, VarSet.mem_def (s := G), and_assoc]

theorem closure_variableColumns (disjoint : facts.equivalence.Disjoint) (G : VarSet) :
    facts.closure (variableColumns facts G).toList = facts.closure G.toList := by
  refine closure_congr disjoint ?_ ?_
  · intro v inside
    obtain ⟨w, listed, _, rfl⟩ := mem_variableColumns.mp inside
    exact (representativeVar_mem_closure disjoint).mpr (mem_closure_self listed)
  · intro w listed
    cases pinned : facts.equivalence.isConstant w with
    | true => exact (closure_closed disjoint _).constants w pinned
    | false =>
      rw [← representativeVar_mem_closure disjoint]
      exact mem_closure_self (mem_variableColumns.mpr ⟨w, listed, pinned, rfl⟩)

theorem variableColumns_isEmpty : (variableColumns facts G).isEmpty = true ↔
    ∀ v ∈ G, facts.equivalence.isConstant v = true := by
  rw [VarSet.isEmpty_iff]
  constructor
  · intro none v listed
    by_contra variable'
    exact none _ (mem_variableColumns.mpr ⟨v, listed, by simpa using variable', rfl⟩)
  · intro constants v inside
    obtain ⟨w, listed, variable', _⟩ := mem_variableColumns.mp inside
    rw [constants w listed] at variable'
    cases variable'

/-- Leaving out a column that the others determine. -/
theorem closure_erase (disjoint : facts.equivalence.Disjoint) {kept : VarSet} {v : Var}
    (determined : facts.determines (kept.erase v).toList [v] = true) :
    facts.closure (kept.erase v).toList = facts.closure kept.toList := by
  refine closure_congr disjoint ?_ ?_
  · intro w inside
    exact mem_closure_self (VarSet.mem_erase.mp inside).1
  · intro w inside
    by_cases same : w = v
    · rw [same]
      exact determines_iff.mp determined v List.mem_cons_self
    · exact mem_closure_self (VarSet.mem_erase.mpr ⟨inside, same⟩)

/-- Leaves out a column that the others determine, unless it is the last one. -/
def dropDetermined (facts : Facts) (kept : VarSet) (v : Var) : VarSet :=
  if kept.size ≤ 1 then kept
  else if facts.determines (kept.erase v).toList [v] then kept.erase v
  else kept

theorem reduceColumns_eq (facts : Facts) (G : VarSet) : reduceColumns facts G =
    (variableColumns facts G).toList.reverse.foldl (dropDetermined facts) (variableColumns facts G) :=
  rfl

theorem dropDetermined_spec (disjoint : facts.equivalence.Disjoint) (kept : VarSet) (v : Var) :
    facts.closure (dropDetermined facts kept v).toList = facts.closure kept.toList ∧
      ((dropDetermined facts kept v).isEmpty = true ↔ kept.isEmpty = true) := by
  unfold dropDetermined
  split
  · exact ⟨rfl, Iff.rfl⟩
  · rename_i several
    split
    · rename_i determined
      refine ⟨closure_erase disjoint determined, ?_⟩
      rw [VarSet.isEmpty_erase (by omega), VarSet.isEmpty, List.isEmpty_iff]
      refine iff_of_false Bool.false_ne_true fun nothing => several ?_
      simp [VarSet.size, nothing]
    · exact ⟨rfl, Iff.rfl⟩

theorem reduceColumns_spec (disjoint : facts.equivalence.Disjoint) (G : VarSet) :
    facts.closure (reduceColumns facts G).toList = facts.closure G.toList ∧
      ((reduceColumns facts G).isEmpty = true ↔ ∀ v ∈ G, facts.equivalence.isConstant v = true) := by
  rw [← closure_variableColumns disjoint G, ← variableColumns_isEmpty, reduceColumns_eq]
  refine foldl_keeps (fun kept : VarSet => facts.closure kept.toList =
    facts.closure (variableColumns facts G).toList ∧
      (kept.isEmpty = true ↔ (variableColumns facts G).isEmpty = true)) ?_ ⟨rfl, Iff.rfl⟩
  rintro v _ kept ⟨same, empty⟩
  obtain ⟨same', empty'⟩ := dropDetermined_spec disjoint kept v
  exact ⟨same'.trans same, empty'.trans empty⟩

/-- Groupings are the same if their columns determine the same. -/
theorem sameGrouping_iff (disjoint : facts.equivalence.Disjoint) :
    sameGrouping facts G R = true ↔ facts.closure G.toList = facts.closure R.toList := by
  rw [sameGrouping, Bool.or_eq_true, decide_eq_true_eq, Bool.and_eq_true, determines_iff,
    determines_iff]
  constructor
  · rintro (rfl | ⟨right, left⟩)
    · rfl
    · exact closure_congr disjoint left right
  · intro same
    refine .inr ⟨fun v listed => ?_, fun v listed => ?_⟩
    · rw [same]
      exact mem_closure_self listed
    · rw [← same]
      exact mem_closure_self listed

end LocalProperty

end QueryOptimizer
