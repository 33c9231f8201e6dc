import Mathlib
import QueryOptimizer.Proofs.Layout.Arrangement

/-! # Properties in normal form

A list of properties is in normal form if its columns are representatives, no order follows from the
columns before it, and no column of a grouping follows from the others. Normalizing a list gives a
list in normal form that the same tuples have, and leaves lists in normal form as they are.
-/

namespace QueryOptimizer

theorem Equivalence.representativeVar_representativeVar {q : Equivalence} (disjoint : q.Disjoint)
    (v : Var) : q.representativeVar (q.representativeVar v) = q.representativeVar v :=
  representativeVar_of_mem disjoint (q.representativeVar_mem v)

theorem VarSet.size_le_of_subset {s t : VarSet} (inside : ∀ v ∈ s, v ∈ t) : s.size ≤ t.size :=
  (List.subperm_of_subset (s.ascending.imp ne_of_lt) inside).length_le

namespace LocalProperty

open Facts

variable {facts : Facts} {preceding : List Var} {G kept : VarSet} {v : Var}

/-! ## Reduced groupings -/

/-- Whether the columns of a grouping are representatives without a constant value, none of which
    follows from the others. -/
structure IsReduced (facts : Facts) (G : VarSet) : Prop where
  varying : ∀ v ∈ G, facts.equivalence.isConstant v = false
  represented : ∀ v ∈ G, facts.equivalence.representativeVar v = v
  irredundant : 1 < G.size → ∀ v ∈ G, v ∉ facts.closure (G.erase v).toList

theorem dropDetermined_subset {w : Var} (inside : w ∈ dropDetermined facts kept v) : w ∈ kept := by
  unfold dropDetermined at inside
  split at inside
  · exact inside
  · split at inside
    · exact (VarSet.mem_erase.mp inside).1
    · exact inside

/-- A column that stays among several does not follow from the others. -/
theorem notMem_closure_of_dropDetermined (stays : v ∈ dropDetermined facts kept v)
    (several : 1 < (dropDetermined facts kept v).size) :
    v ∉ facts.closure (kept.erase v).toList := by
  unfold dropDetermined at stays several
  split at several
  · omega
  · rename_i large
    rw [if_neg large] at stays
    split at stays
    · exact absurd rfl (VarSet.mem_erase.mp stays).2
    · rename_i undetermined
      intro known
      refine undetermined (determines_iff.mpr fun w listed => ?_)
      rw [List.mem_singleton.mp listed]
      exact known

/-- Each column is looked at once. What stays then, stays undetermined as further columns go. -/
theorem foldl_dropDetermined (disjoint : facts.equivalence.Disjoint) (kept : VarSet)
    (vs : List Var) : (∀ v ∈ vs.foldl (dropDetermined facts) kept, v ∈ kept) ∧
      (1 < (vs.foldl (dropDetermined facts) kept).size →
        ∀ v ∈ vs, v ∈ vs.foldl (dropDetermined facts) kept →
          v ∉ facts.closure ((vs.foldl (dropDetermined facts) kept).erase v).toList) := by
  induction vs generalizing kept with
  | nil => exact ⟨fun _ inside => inside, fun _ _ impossible => (nomatch impossible)⟩
  | cons w vs ih =>
    rw [List.foldl_cons]
    obtain ⟨fewer, undetermined⟩ := ih (dropDetermined facts kept w)
    refine ⟨fun v inside => dropDetermined_subset (fewer v inside), fun several v listed stays => ?_⟩
    rcases List.mem_cons.mp listed with rfl | listed
    · have before := notMem_closure_of_dropDetermined (fewer v stays)
        (several.trans_le (VarSet.size_le_of_subset fewer))
      refine fun known => before (closure_mono disjoint (fun u left => ?_) v known)
      obtain ⟨inside, other⟩ := VarSet.mem_erase.mp left
      exact VarSet.mem_erase.mpr ⟨dropDetermined_subset (fewer u inside), other⟩
    · exact undetermined several v listed stays

theorem isReduced_reduceColumns (disjoint : facts.equivalence.Disjoint) (G : VarSet) :
    IsReduced facts (reduceColumns facts G) := by
  rw [reduceColumns_eq]
  obtain ⟨fewer, undetermined⟩ := foldl_dropDetermined disjoint (variableColumns facts G)
    (variableColumns facts G).toList.reverse
  refine ⟨fun v inside => ?_, fun v inside => ?_, fun several v inside => ?_⟩
  · obtain ⟨w, _, varies, rfl⟩ := mem_variableColumns.mp (fewer v inside)
    rw [Equivalence.isConstant_of_mem disjoint (facts.equivalence.representativeVar_mem w), varies]
  · obtain ⟨w, _, _, rfl⟩ := mem_variableColumns.mp (fewer v inside)
    exact Equivalence.representativeVar_representativeVar disjoint w
  · exact undetermined several v (List.mem_reverse.mpr (fewer v inside)) inside

theorem IsReduced.variableColumns_eq (reduced : IsReduced facts G) : variableColumns facts G = G := by
  refine VarSet.ext fun v => mem_variableColumns.trans ⟨?_, fun inside => ?_⟩
  · rintro ⟨w, inside, _, rfl⟩
    rwa [reduced.represented w inside]
  · exact ⟨v, inside, reduced.varying v inside, reduced.represented v inside⟩

theorem IsReduced.reduceColumns_eq_self (reduced : IsReduced facts G) : reduceColumns facts G = G := by
  rw [reduceColumns_eq, reduced.variableColumns_eq]
  refine foldl_keeps (fun kept => kept = G) (fun v listed kept same => ?_) rfl
  rw [same, dropDetermined]
  split
  · rfl
  · rename_i several
    refine if_neg fun determined => ?_
    exact reduced.irredundant (not_le.mp several) v (List.mem_reverse.mp listed)
      (determines_iff.mp determined v List.mem_cons_self)

/-! ## Normal lists -/

/-- Whether properties that follow properties over the columns `preceding` are in normal form. -/
def IsNormalAfter (facts : Facts) : List Var → List LocalProperty → Prop
  | _, [] => True
  | preceding, order c :: rest =>
    facts.equivalence.representativeVar c.column = c.column ∧ c.column ∉ facts.closure preceding ∧
      IsNormalAfter facts (preceding ++ [c.column]) rest
  | preceding, grouping columns :: rest =>
    columns.isEmpty = false ∧ IsReduced facts columns ∧
      IsNormalAfter facts (preceding ++ columns.toList) rest

theorem isNormalAfter_normalizeAfter (disjoint : facts.equivalence.Disjoint)
    (properties : List LocalProperty) :
    IsNormalAfter facts preceding (normalizeAfter facts preceding properties) := by
  induction properties generalizing preceding with
  | nil => trivial
  | cons property rest ih =>
    cases property with
    | order c =>
      simp only [normalizeAfter, isKnown_iff disjoint]
      split
      · exact ih
      · rename_i new
        rw [← representativeVar_mem_closure disjoint] at new
        exact ⟨Equivalence.representativeVar_representativeVar disjoint _, new, ih⟩
    | grouping G =>
      simp only [normalizeAfter]
      split
      · exact ih
      · rename_i nonempty
        exact ⟨Bool.eq_false_iff.mpr nonempty, isReduced_reduceColumns disjoint G, ih⟩

theorem IsNormalAfter.normalizeAfter_eq_self (disjoint : facts.equivalence.Disjoint)
    {properties : List LocalProperty} (normal : IsNormalAfter facts preceding properties) :
    normalizeAfter facts preceding properties = properties := by
  induction properties generalizing preceding with
  | nil => rfl
  | cons property rest ih =>
    cases property with
    | order c =>
      obtain ⟨represented, new, normal⟩ := normal
      simp only [normalizeAfter, isKnown_iff disjoint]
      rw [if_neg new, represented, ih normal]
    | grouping G =>
      obtain ⟨nonempty, reduced, normal⟩ := normal
      simp only [normalizeAfter, reduced.reduceColumns_eq_self, nonempty, Bool.false_eq_true,
        if_false, ih normal]

/-- Normalizing gives a normal form, which normalizing again does not change. Tuples in which the
    facts hold have the normal form exactly if they have the properties. -/
theorem normalize_keeps_meaning (disjoint : facts.equivalence.Disjoint)
    (properties : List LocalProperty) :
    IsNormalAfter facts [] (normalize facts properties) ∧
    normalize facts (normalize facts properties) = normalize facts properties ∧
    ∀ (order : ValueOrder) (ts : List Tuple), facts.HoldIn ts →
      (Arranged order properties ts ↔ Arranged order (normalize facts properties) ts) := by
  have normal : IsNormalAfter facts [] (normalize facts properties) :=
    isNormalAfter_normalizeAfter disjoint properties
  exact ⟨normal, normal.normalizeAfter_eq_self disjoint, fun order ts hold =>
    (arrangedAfter_normalizeAfter disjoint hold properties rfl).symm⟩

/-- The third and the fifth variable are equal, and the second has one value. -/
def constantFacts : Facts := ⟨({} : Equivalence).merge 3 5, [.constant 2]⟩

/-- A variable that has one value orders nothing, and a grouping does not need it. -/
theorem normalize_keeps_meaning_sample :
    normalize constantFacts [.order ⟨2, .desc⟩, grouping (.ofList [1, 2]), .order ⟨5, .asc⟩] =
      [grouping (.ofList [1]), .order ⟨3, .asc⟩] ∧
    Arranged integerOrder [.order ⟨2, .desc⟩, grouping (.ofList [1, 2]), .order ⟨5, .asc⟩]
      [sampleRow 2 7 4 4, sampleRow 2 7 9 9, sampleRow 1 7 5 5] := by
  have disjoint : constantFacts.equivalence.Disjoint := Equivalence.Disjoint.empty.merge
  have normal : normalize constantFacts
      [.order ⟨2, .desc⟩, grouping (.ofList [1, 2]), .order ⟨5, .asc⟩] =
      [grouping (.ofList [1]), .order ⟨3, .asc⟩] := by decide
  obtain ⟨_, _, meaning⟩ := normalize_keeps_meaning disjoint
    [.order ⟨2, .desc⟩, grouping (.ofList [1, 2]), .order ⟨5, .asc⟩]
  rw [normal] at meaning
  refine ⟨normal, (meaning integerOrder _ ⟨fun t ht => ?_, ?_⟩).mpr ?_⟩
  · refine (Equivalence.HoldsIn.empty t).merge ?_
    fin_cases ht <;> rfl
  · intro d member t ht u hu _ v inTail
    cases List.mem_singleton.mp member
    rw [VarSet.mem_singleton.mp inTail]
    fin_cases ht <;> fin_cases hu <;> rfl
  · have single : (VarSet.ofList [1]).toList = [1] := rfl
    simp [Arranged, ArrangedAfter, HoldsAmong, Direction.Allows, integerOrder, Tuple.AgreeOn, sampleRow,
      columns, Tuple.extend, List.lookup, single]

end LocalProperty

end QueryOptimizer
