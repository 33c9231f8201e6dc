import Mathlib
import QueryOptimizer.Implementation.Enforcement
import QueryOptimizer.Proofs.Layout.Satisfaction
import QueryOptimizer.Proofs.Physical.Truth

/-! # Sorts that establish local properties

A sort that is inserted for a list of properties sorts by all their columns, each at its first place and in
the direction that it has there. Sorted tuples have the whole list.
-/

namespace QueryOptimizer

namespace Tuple

variable {order : ValueOrder} {cs : List OrderColumn} {t u : Tuple}

theorem before_iff : Before order cs t u ↔
    t.AgreeOn u (cs.map (·.column)) ∨ t.StrictlyBefore order cs u := by
  induction cs with
  | nil => simp [Before, AgreeOn]
  | cons c cs ih =>
    have agree : t.AgreeOn u ((c :: cs).map (·.column)) ↔
        t c.column = u c.column ∧ t.AgreeOn u (cs.map (·.column)) := List.forall_mem_cons
    rw [Before, StrictlyBefore, agree]
    split
    · rename_i same
      simpa [same] using ih
    · rename_i different
      simp [different]

/-- Only the first of several entries of a column matters to an order. -/
theorem before_distinctColumns :
    Before order (Partitioning.distinctColumns cs) t u ↔ Before order cs t u := by
  rw [before_iff, before_iff, strictlyBefore_distinctColumns]
  refine or_congr_left (forall_congr' fun v => ?_)
  rw [Partitioning.mem_column_distinctColumns]

end Tuple

namespace LocalProperty

variable {order : ValueOrder} {earlier : List Var} {ts : List Tuple}

/-- The columns that a property is sorted by, also those that stand in a property before it. -/
def sortedBy : LocalProperty → List OrderColumn
  | .order c => [c]
  | grouping columns => columns.toList.map fun v => ⟨v, .asc⟩

theorem sortColumns_eq (properties : List LocalProperty) :
    sortColumns properties = Partitioning.distinctColumns (properties.flatMap sortedBy) := rfl

theorem map_column_sortedBy (property : LocalProperty) :
    property.sortedBy.map (·.column) = property.columns := by
  cases property with
  | order c => rfl
  | grouping columns => simp [sortedBy, LocalProperty.columns, Function.comp_def]

/-- Tuples that are sorted by the columns of a property have it. -/
theorem holdsAmong_of_sortedBy {property : LocalProperty}
    (sorted : ArrangedAfter order earlier (property.sortedBy.map .order) ts) :
    property.HoldsAmong order earlier ts := by
  cases property with
  | order c => exact sorted.1
  | grouping G =>
    simp only [HoldsAmong, List.triplewise_iff_getElem]
    intro i j k first second small agree agree' ends
    have run : (grouping G).sortedBy.map (·.column) = G.toList := map_column_sortedBy _
    rw [← run] at ends ⊢
    exact agreeOn_of_orders sorted first second small agree agree' ends

/-- Sorting by the columns of all properties arranges tuples by one property after the other. -/
theorem arrangedAfter_of_sortedBy {properties : List LocalProperty}
    (sorted : ArrangedAfter order earlier ((properties.flatMap sortedBy).map .order) ts) :
    ArrangedAfter order earlier properties ts := by
  induction properties generalizing earlier with
  | nil => trivial
  | cons property rest ih =>
    rw [List.flatMap_cons, List.map_append, arrangedAfter_append, flatMap_columns_order,
      map_column_sortedBy] at sorted
    exact ⟨holdsAmong_of_sortedBy sorted.1, ih sorted.2⟩

/-- Tuples in the order of the columns that an inserted sort has for some properties have these
    properties. -/
theorem arranged_of_sortColumns (order : ValueOrder) (properties : List LocalProperty) (ts : List Tuple)
    (sorted : ts.Pairwise (Tuple.Before order (sortColumns properties))) :
    Arranged order properties ts := by
  have all : ts.Pairwise (Tuple.Before order (properties.flatMap sortedBy)) := by
    rw [sortColumns_eq] at sorted
    exact sorted.imp Tuple.before_distinctColumns.mp
  exact arrangedAfter_of_sortedBy (Tuple.Before.arrangedAfter [] all)

/-- The second column is grouped first, so that its order comes to nothing. The third is descending, also
    in the grouping after it. -/
theorem arranged_of_sortColumns_repeated :
    sortColumns [grouping (.ofList [1, 2]), .order ⟨2, .desc⟩, .order ⟨3, .desc⟩, grouping (.ofList [3, 5])] =
      [⟨1, .asc⟩, ⟨2, .asc⟩, ⟨3, .desc⟩, ⟨5, .asc⟩] ∧
    Arranged integerOrder
      [grouping (.ofList [1, 2]), .order ⟨2, .desc⟩, .order ⟨3, .desc⟩, grouping (.ofList [3, 5])]
      [sampleRow 1 7 9 2, sampleRow 1 8 9 4, sampleRow 1 8 4 3, sampleRow 1 8 4 6] := by
  have columns : sortColumns [grouping (.ofList [1, 2]), .order ⟨2, .desc⟩, .order ⟨3, .desc⟩,
      grouping (.ofList [3, 5])] = [⟨1, .asc⟩, ⟨2, .asc⟩, ⟨3, .desc⟩, ⟨5, .asc⟩] := by decide
  refine ⟨columns, arranged_of_sortColumns integerOrder _ _ ?_⟩
  rw [columns]
  simp [Tuple.Before, Direction.Allows, integerOrder, sampleRow, Tuple.extend, List.lookup]

end LocalProperty

end QueryOptimizer
