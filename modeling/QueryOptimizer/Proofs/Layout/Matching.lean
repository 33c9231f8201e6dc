import Mathlib
import QueryOptimizer.Proofs.Layout.Arrangement

/-! # Matching from list to list

Every list of properties matches itself with more behind it, and matches can be chained: what was
found for a grouping in one list is found in every list that matches it. Matches therefore stay when
more is delivered or less is required.
-/

namespace QueryOptimizer.LocalProperty

open Facts

variable {facts : Facts} {preceding : List Var} {c : OrderColumn} {G H covered : VarSet}
  {required delivered given rest : List LocalProperty}

theorem sameGrouping_congr (disjoint : facts.equivalence.Disjoint)
    (same : facts.closure G.toList = facts.closure H.toList) (columns : VarSet) :
    sameGrouping facts G columns = sameGrouping facts H columns := by
  rw [Bool.eq_iff_iff, sameGrouping_iff disjoint, sameGrouping_iff disjoint, same]

/-! ## What is left behind a grouping -/

/-- What follows the delivered properties that make up a grouping: one grouping, or orders. -/
def afterGrouping (facts : Facts) (columns : VarSet) :
    List LocalProperty → Option (List LocalProperty)
  | grouping group :: rest => if sameGrouping facts columns group then some rest else none
  | properties => takeGrouping facts columns ∅ properties

theorem provides_order_iff : provides facts (order c :: required) delivered = true ↔
    ∃ rest, delivered = order c :: rest ∧ provides facts required rest = true := by
  cases delivered with
  | nil => simp [provides]
  | cons property rest => cases property <;> simp [provides]

theorem provides_grouping_iff : provides facts (grouping G :: required) delivered = true ↔
    ∃ rest, afterGrouping facts G delivered = some rest ∧ provides facts required rest = true := by
  cases delivered with
  | nil => simp [provides, afterGrouping, takeGrouping]
  | cons property rest =>
    cases property with
    | grouping H => simp [provides, afterGrouping]
    | order c =>
      rw [provides, afterGrouping]
      · cases takeGrouping facts G ∅ (order c :: rest) <;> simp
      · intro group rest impossible
        cases impossible

/-- Groupings whose columns determine the same take the same orders. -/
theorem takeGrouping_congr (disjoint : facts.equivalence.Disjoint)
    (same : facts.closure G.toList = facts.closure H.toList) (properties : List LocalProperty) :
    takeGrouping facts G covered properties = takeGrouping facts H covered properties := by
  induction properties generalizing covered with
  | nil => rfl
  | cons property rest ih =>
    cases property with
    | grouping => rfl
    | order c =>
      have inside : facts.determines G.toList [c.column] = facts.determines H.toList [c.column] := by
        rw [determines, determines, same]
      simp only [takeGrouping, inside, sameGrouping_congr disjoint same, ih]

theorem afterGrouping_congr (disjoint : facts.equivalence.Disjoint)
    (same : facts.closure G.toList = facts.closure H.toList) (properties : List LocalProperty) :
    afterGrouping facts G properties = afterGrouping facts H properties := by
  unfold afterGrouping
  split
  · rw [sameGrouping_congr disjoint same]
  · exact takeGrouping_congr disjoint same _

/-- Orders that make up a grouping are found, one by one, in all properties that provide them. -/
theorem takeGrouping_of_provides (took : takeGrouping facts G covered delivered = some rest)
    (provided : provides facts delivered given = true) :
    ∃ rest', takeGrouping facts G covered given = some rest' ∧ provides facts rest rest' = true := by
  induction delivered generalizing covered given with
  | nil => cases took
  | cons property later ih =>
    cases property with
    | grouping => cases took
    | order c =>
      obtain ⟨later', rfl, provided'⟩ := provides_order_iff.mp provided
      simp only [takeGrouping] at took ⊢
      split at took
      · rename_i inside
        rw [if_pos inside]
        split at took
        · rename_i same
          cases took
          exact ⟨later', if_pos same, provided'⟩
        · rename_i different
          rw [if_neg different]
          exact ih took provided'
      · cases took

theorem afterGrouping_of_provides (disjoint : facts.equivalence.Disjoint)
    (found : afterGrouping facts G delivered = some rest)
    (provided : provides facts delivered given = true) :
    ∃ rest', afterGrouping facts G given = some rest' ∧ provides facts rest rest' = true := by
  unfold afterGrouping at found
  split at found
  · rename_i H later
    split at found
    · rename_i same
      cases found
      rw [afterGrouping_congr disjoint ((sameGrouping_iff disjoint).mp same)]
      exact provides_grouping_iff.mp provided
    · cases found
  · rename_i notGrouping
    -- The run begins with an order, and so do the properties that provide it.
    cases delivered with
    | nil => cases found
    | cons property later =>
      cases property with
      | grouping H => exact absurd rfl (notGrouping H later)
      | order c =>
        obtain ⟨rest', took, provided'⟩ := takeGrouping_of_provides found provided
        obtain ⟨later', rfl, _⟩ := provides_order_iff.mp provided
        exact ⟨rest', took, provided'⟩

/-! ## Chains of matches -/

theorem provides_append (properties more : List LocalProperty) :
    provides facts properties (properties ++ more) = true := by
  induction properties with
  | nil => rfl
  | cons property rest ih => cases property <;> simp [provides, sameGrouping, ih]

theorem provides_trans (disjoint : facts.equivalence.Disjoint)
    (first : provides facts required delivered = true)
    (second : provides facts delivered given = true) : provides facts required given = true := by
  induction required generalizing delivered given with
  | nil => simp [provides]
  | cons property required ih =>
    cases property with
    | order c =>
      obtain ⟨rest, rfl, first'⟩ := provides_order_iff.mp first
      obtain ⟨rest', rfl, second'⟩ := provides_order_iff.mp second
      exact provides_order_iff.mpr ⟨rest', rfl, ih first' second'⟩
    | grouping G =>
      obtain ⟨rest, found, first'⟩ := provides_grouping_iff.mp first
      obtain ⟨rest', found', second'⟩ := afterGrouping_of_provides disjoint found second
      exact provides_grouping_iff.mpr ⟨rest', found', ih first' second'⟩

/-- The normal form of a list goes on with the normal form of what is put behind it. -/
theorem normalizeAfter_append (properties more : List LocalProperty) :
    normalizeAfter facts preceding (properties ++ more) = normalizeAfter facts preceding properties ++
      normalizeAfter facts (preceding ++ (normalizeAfter facts preceding properties).flatMap columns)
        more := by
  induction properties generalizing preceding with
  | nil => simp [normalizeAfter]
  | cons property rest ih =>
    cases property with
    | order c =>
      simp only [List.cons_append, normalizeAfter]
      split
      · exact ih
      · simp [ih, columns]
    | grouping G =>
      simp only [List.cons_append, normalizeAfter]
      split
      · exact ih
      · simp [ih, columns]

theorem isMatch_append (properties more : List LocalProperty) :
    isMatch facts properties (properties ++ more) = true := by
  unfold isMatch normalize
  rw [normalizeAfter_append]
  exact provides_append _ _

theorem isMatch_trans (disjoint : facts.equivalence.Disjoint)
    (first : isMatch facts required delivered = true)
    (second : isMatch facts delivered given = true) : isMatch facts required given = true :=
  provides_trans disjoint first second

/-- Matching is reflexive and transitive. More properties may be delivered than were matched, and
    fewer may be required. -/
theorem isMatch_preorder (disjoint : facts.equivalence.Disjoint) :
    (∀ a, isMatch facts a a = true) ∧
    (∀ a b c, isMatch facts a b = true → isMatch facts b c = true → isMatch facts a c = true) ∧
    (∀ a b s, isMatch facts a b = true → isMatch facts a (b ++ s) = true) ∧
    ∀ a b s, isMatch facts (a ++ s) b = true → isMatch facts a b = true := by
  refine ⟨fun a => ?_, fun a b c => isMatch_trans disjoint, fun a b s matched => ?_,
    fun a b s matched => ?_⟩
  · have longer : isMatch facts a (a ++ []) = true := isMatch_append a []
    rwa [List.append_nil] at longer
  · exact isMatch_trans disjoint matched (isMatch_append b s)
  · exact isMatch_trans disjoint (isMatch_append a s) matched

/-- A grouping by two variables is met by a grouping by the first, which determines the second, and
    so by an order that begins with the first. -/
theorem isMatch_preorder_sample :
    isMatch sampleFacts [grouping (.ofList [1, 2])] [grouping (.ofList [1]), order ⟨5, .desc⟩] = true ∧
    isMatch sampleFacts [grouping (.ofList [1]), order ⟨5, .desc⟩]
      [order ⟨1, .asc⟩, order ⟨3, .desc⟩] = true ∧
    isMatch sampleFacts [grouping (.ofList [1, 2])]
      [order ⟨1, .asc⟩, order ⟨3, .desc⟩, order ⟨4, .asc⟩] = true := by
  have disjoint : sampleFacts.equivalence.Disjoint := Equivalence.Disjoint.empty.merge
  obtain ⟨_, trans, longer, _⟩ := isMatch_preorder disjoint
  have first : isMatch sampleFacts [grouping (.ofList [1, 2])]
    [grouping (.ofList [1]), order ⟨5, .desc⟩] = true := by decide
  have second : isMatch sampleFacts [grouping (.ofList [1]), order ⟨5, .desc⟩]
    [order ⟨1, .asc⟩, order ⟨3, .desc⟩] = true := by decide
  exact ⟨first, second, longer _ _ [order ⟨4, .asc⟩] (trans _ _ _ first second)⟩

end QueryOptimizer.LocalProperty
