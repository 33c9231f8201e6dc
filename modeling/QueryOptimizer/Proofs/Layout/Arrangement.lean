import Mathlib
import QueryOptimizer.Proofs.Layout.Orders
import QueryOptimizer.Proofs.Relational.Facts

/-! # Arrangements of tuples

A list of local properties is read from left to right: an order sorts the tuples that agree on the
columns of all properties before it, and a grouping puts together those of them that agree on its
columns. Tuples in which the facts hold have a list of properties exactly if they have its normal
form, and tuples that have the delivered properties have all properties that match them.
-/

namespace QueryOptimizer

/-- A comparison of values, in which missing values have their place too. Values that may stand on
    both sides of each other are equal. -/
structure ValueOrder where
  le : Option Scalar → Option Scalar → Prop
  refl : ∀ x, le x x
  antisymm : ∀ {x y}, le x y → le y x → x = y

namespace Direction

/-- Whether a value may stand before another. -/
def Allows (order : ValueOrder) : Direction → Option Scalar → Option Scalar → Prop
  | asc, x, y => order.le x y
  | desc, x, y => order.le y x

theorem allows_refl (order : ValueOrder) (direction : Direction) (x : Option Scalar) :
    direction.Allows order x x := by
  cases direction <;> exact order.refl x

theorem Allows.antisymm {order : ValueOrder} {direction : Direction} {x y : Option Scalar}
    (before : direction.Allows order x y) (after : direction.Allows order y x) : x = y := by
  cases direction with
  | asc => exact order.antisymm before after
  | desc => exact order.antisymm after before

end Direction

theorem Tuple.agreeOn_append {t u : Tuple} {vs ws : List Var} :
    t.AgreeOn u (vs ++ ws) ↔ t.AgreeOn u vs ∧ t.AgreeOn u ws := by
  simp only [AgreeOn, List.mem_append, or_imp, forall_and]

/-- Columns with one closure tell the same tuples apart. -/
theorem Facts.HoldIn.agreeOn_iff {facts : Facts} {ts : List Tuple} {vs ws : List Var} {t u : Tuple}
    (hold : facts.HoldIn ts) (same : facts.closure vs = facts.closure ws) (ht : t ∈ ts)
    (hu : u ∈ ts) : t.AgreeOn u vs ↔ t.AgreeOn u ws := by
  constructor
  · intro agree v listed
    exact hold.closure ht hu agree v (same ▸ mem_closure_self listed)
  · intro agree v listed
    exact hold.closure ht hu agree v (same ▸ mem_closure_self listed)

namespace LocalProperty

open Facts

variable {facts : Facts} {order : ValueOrder} {ts : List Tuple} {earlier preceding : List Var}
  {G H : VarSet} {required delivered : List LocalProperty}

/-- Whether a property holds among the tuples that agree on some columns. -/
def HoldsAmong (order : ValueOrder) (earlier : List Var) (ts : List Tuple) : LocalProperty → Prop
  | .order c => ts.Pairwise fun t u =>
    t.AgreeOn u earlier → c.direction.Allows order (t c.column) (u c.column)
  -- No other tuple stands between two that agree on the columns.
  | grouping columns => ts.Triplewise fun t s u =>
    t.AgreeOn s earlier → t.AgreeOn u earlier →
      t.AgreeOn u columns.toList → t.AgreeOn s columns.toList

/-- Whether each property holds among the tuples that agree on the given columns and on those of the
    properties before it. -/
def ArrangedAfter (order : ValueOrder) : List Var → List LocalProperty → List Tuple → Prop
  | _, [], _ => True
  | earlier, property :: rest, ts =>
    property.HoldsAmong order earlier ts ∧ ArrangedAfter order (earlier ++ property.columns) rest ts

/-- Whether tuples have a list of properties. -/
def Arranged (order : ValueOrder) (properties : List LocalProperty) (ts : List Tuple) : Prop :=
  ArrangedAfter order [] properties ts

theorem arrangedAfter_append {first second : List LocalProperty} :
    ArrangedAfter order earlier (first ++ second) ts ↔ ArrangedAfter order earlier first ts ∧
      ArrangedAfter order (earlier ++ first.flatMap columns) second ts := by
  induction first generalizing earlier with
  | nil => simp [ArrangedAfter]
  | cons property first ih => simp [ArrangedAfter, ih, and_assoc]

/-! ## Properties that mean the same -/

theorem HoldsAmong.order_congr {c d : OrderColumn} (hold : facts.HoldIn ts)
    (before : facts.closure earlier = facts.closure preceding) (direction : c.direction = d.direction)
    (values : ∀ t ∈ ts, t c.column = t d.column)
    (holds : (LocalProperty.order c).HoldsAmong order earlier ts) :
    (LocalProperty.order d).HoldsAmong order preceding ts := by
  refine List.Pairwise.imp_of_mem (fun {t u} ht hu allowed agree => ?_) holds
  rw [← values t ht, ← values u hu, ← direction]
  exact allowed ((hold.agreeOn_iff before ht hu).mpr agree)

theorem HoldsAmong.grouping_congr (hold : facts.HoldIn ts)
    (before : facts.closure earlier = facts.closure preceding)
    (columns : facts.closure G.toList = facts.closure H.toList)
    (holds : (grouping G).HoldsAmong order earlier ts) :
    (grouping H).HoldsAmong order preceding ts := by
  simp only [HoldsAmong, List.triplewise_iff_getElem] at holds ⊢
  intro i j k first second small agree agree' same
  have atI : ts[i] ∈ ts := List.getElem_mem _
  have atJ : ts[j] ∈ ts := List.getElem_mem _
  have atK : ts[k] ∈ ts := List.getElem_mem _
  rw [← hold.agreeOn_iff before atI atJ] at agree
  rw [← hold.agreeOn_iff before atI atK] at agree'
  rw [← hold.agreeOn_iff columns atI atK] at same
  rw [← hold.agreeOn_iff columns atI atJ]
  exact holds i j k first second small agree agree' same

/-- An order by a column that the earlier columns determine says nothing. -/
theorem holdsAmong_of_mem_closure (hold : facts.HoldIn ts) {c : OrderColumn}
    (known : c.column ∈ facts.closure earlier) :
    (LocalProperty.order c).HoldsAmong order earlier ts := by
  refine List.pairwise_iff_forall_sublist.mpr fun {t u} sublist agree => ?_
  rw [hold.closure (sublist.subset (by simp)) (sublist.subset (by simp)) agree c.column known]
  exact c.direction.allows_refl order _

/-- A grouping by columns that have one value says nothing. -/
theorem holdsAmong_of_closure_nil (hold : facts.HoldIn ts)
    (none : facts.closure G.toList = facts.closure []) :
    (grouping G).HoldsAmong order earlier ts := by
  refine HoldsAmong.grouping_congr (G := ∅) hold rfl none.symm ?_
  simp only [HoldsAmong, List.triplewise_iff_getElem]
  intro i j k _ _ _ _ _ same v impossible
  cases impossible

/-! ## Normal forms -/

theorem arrangedAfter_normalizeAfter (disjoint : facts.equivalence.Disjoint) (hold : facts.HoldIn ts)
    (properties : List LocalProperty) (before : facts.closure preceding = facts.closure earlier) :
    ArrangedAfter order preceding (normalizeAfter facts preceding properties) ts ↔
      ArrangedAfter order earlier properties ts := by
  induction properties generalizing preceding earlier with
  | nil => exact Iff.rfl
  | cons property rest ih =>
    cases property with
    | order c =>
      simp only [normalizeAfter, isKnown_iff disjoint]
      by_cases known : c.column ∈ facts.closure preceding
      · rw [if_pos known, ArrangedAfter, columns]
        rw [before] at known
        rw [ih (before.trans (closure_append_of_mem disjoint known).symm)]
        exact (and_iff_right (holdsAmong_of_mem_closure hold known)).symm
      · rw [if_neg known, ArrangedAfter, ArrangedAfter, columns, columns,
          ih (closure_append disjoint before (closure_representativeVar disjoint c.column))]
        have values : ∀ t ∈ ts, t (facts.equivalence.representativeVar c.column) = t c.column :=
          fun t ht =>
            (hold.equivalence t ht).membersOf (facts.equivalence.representativeVar_mem c.column)
        refine and_congr_left fun _ => ⟨?_, ?_⟩
        · exact HoldsAmong.order_congr hold before rfl values
        · exact HoldsAmong.order_congr hold before.symm rfl fun t ht => (values t ht).symm
    | grouping G =>
      obtain ⟨same, _⟩ := reduceColumns_spec disjoint G
      simp only [normalizeAfter]
      split
      · rename_i isEmpty
        have nothing : (reduceColumns facts G).toList = [] := List.isEmpty_iff.mp isEmpty
        rw [nothing] at same
        have more := closure_append disjoint before same
        rw [List.append_nil] at more
        rw [ArrangedAfter, columns, ih more]
        exact (and_iff_right (holdsAmong_of_closure_nil hold same.symm)).symm
      · rw [ArrangedAfter, ArrangedAfter, columns, columns, ih (closure_append disjoint before same)]
        refine and_congr_left fun _ => ⟨?_, ?_⟩
        · exact HoldsAmong.grouping_congr hold before same
        · exact HoldsAmong.grouping_congr hold before.symm same.symm

/-! ## Matching -/

theorem flatMap_columns_order (cs : List OrderColumn) :
    (cs.map LocalProperty.order).flatMap columns = cs.map (·.column) := by
  rw [List.flatMap_map, List.map_eq_flatMap]
  rfl

/-- The orders that are taken for a grouping determine the same as its columns. -/
theorem takeGrouping_spec (disjoint : facts.equivalence.Disjoint)
    {properties rest : List LocalProperty}
    (took : takeGrouping facts G ∅ properties = some rest) :
    ∃ run : List OrderColumn, properties = run.map .order ++ rest ∧
      facts.closure G.toList = facts.closure (run.map (·.column)) := by
  have general : ∀ covered, takeGrouping facts G covered properties = some rest →
      ∃ run : List OrderColumn, properties = run.map .order ++ rest ∧
        sameGrouping facts G (covered.insertAll (run.map (·.column))) = true := by
    clear took
    intro covered took
    fun_induction takeGrouping facts G covered properties with
    | case1 covered c rest' _ _ same =>
      cases took
      exact ⟨[c], rfl, same⟩
    | case2 covered c rest' _ _ _ ih =>
      obtain ⟨run, rfl, same⟩ := ih took
      exact ⟨c :: run, rfl, same⟩
    | case3 => cases took
    | case4 => cases took
  obtain ⟨run, shape, same⟩ := general ∅ took
  refine ⟨run, shape, ((sameGrouping_iff disjoint).mp same).trans ?_⟩
  exact closure_congr disjoint (fun v listed => mem_closure_self (VarSet.mem_ofList.mp listed))
    fun v listed => mem_closure_self (VarSet.mem_ofList.mpr listed)

/-- Tuples between two that agree on all columns of an order agree with them. -/
theorem agreeOn_of_orders {run : List OrderColumn}
    (sorted : ArrangedAfter order earlier (run.map .order) ts) {i j k : Nat} (first : i < j)
    (second : j < k) (small : k < ts.length) (agree : ts[i].AgreeOn ts[j] earlier)
    (agree' : ts[i].AgreeOn ts[k] earlier) (ends : ts[i].AgreeOn ts[k] (run.map (·.column))) :
    ts[i].AgreeOn ts[j] (run.map (·.column)) := by
  induction run generalizing earlier with
  | nil => intro v impossible; cases impossible
  | cons c run ih =>
    obtain ⟨ordered, sorted⟩ := sorted
    rw [HoldsAmong, List.pairwise_iff_getElem] at ordered
    simp only [List.map_cons, Tuple.AgreeOn, List.forall_mem_cons] at ends ⊢
    have up := ordered i j _ _ first agree
    have down := ordered j k _ _ second fun v listed => (agree v listed).symm.trans (agree' v listed)
    rw [← ends.1] at down
    have here : ts[i] c.column = ts[j] c.column := up.antisymm down
    refine ⟨here, ih sorted ?_ ?_ ends.2⟩
    · exact Tuple.agreeOn_append.mpr ⟨agree, by simpa [Tuple.AgreeOn, columns] using here⟩
    · exact Tuple.agreeOn_append.mpr ⟨agree', by simpa [Tuple.AgreeOn, columns] using ends.1⟩

/-- Sorted tuples are grouped by the columns of the order, and so by all columns with the same
    closure. -/
theorem HoldsAmong.of_orders {run : List OrderColumn} (hold : facts.HoldIn ts)
    (sorted : ArrangedAfter order earlier (run.map .order) ts)
    (same : facts.closure G.toList = facts.closure (run.map (·.column))) :
    (grouping G).HoldsAmong order earlier ts := by
  simp only [HoldsAmong, List.triplewise_iff_getElem]
  intro i j k first second small agree agree' ends
  have atI : ts[i] ∈ ts := List.getElem_mem _
  rw [hold.agreeOn_iff same atI (List.getElem_mem _)] at ends ⊢
  exact agreeOn_of_orders sorted first second small agree agree' ends

/-- Walking over both lists keeps that the columns on the left and on the right determine each
    other, so a property that is found on the right holds on the left. -/
theorem arrangedAfter_of_provides (disjoint : facts.equivalence.Disjoint) (hold : facts.HoldIn ts)
    (before : facts.closure earlier = facts.closure preceding)
    (provided : provides facts required delivered = true)
    (arranged : ArrangedAfter order preceding delivered ts) :
    ArrangedAfter order earlier required ts := by
  fun_induction provides facts required delivered generalizing earlier preceding with
  | case1 => trivial
  | case2 c required d delivered ih =>
    obtain ⟨same, rest⟩ := Bool.and_eq_true_iff.mp provided
    cases of_decide_eq_true same
    obtain ⟨ordered, arranged⟩ := arranged
    exact ⟨ordered.order_congr hold before.symm rfl fun _ _ => rfl,
      ih (closure_append disjoint before rfl) rest arranged⟩
  | case3 columns required group delivered ih =>
    obtain ⟨same, rest⟩ := Bool.and_eq_true_iff.mp provided
    obtain ⟨grouped, arranged⟩ := arranged
    have alike := (sameGrouping_iff disjoint).mp same
    exact ⟨grouped.grouping_congr hold before.symm alike.symm,
      ih (closure_append disjoint before alike) rest arranged⟩
  | case4 columns required c delivered rest took ih =>
    obtain ⟨run, shape, alike⟩ := takeGrouping_spec disjoint took
    rw [shape, arrangedAfter_append] at arranged
    obtain ⟨sorted, arranged⟩ := arranged
    rw [flatMap_columns_order] at arranged
    have grouped : (grouping columns).HoldsAmong order preceding ts := .of_orders hold sorted alike
    exact ⟨grouped.grouping_congr hold before.symm rfl,
      ih (closure_append disjoint before alike) provided arranged⟩
  | case5 => cases provided
  | case6 => cases provided

/-- Tuples that have the delivered properties have the required ones, if these match. -/
theorem arranged_of_isMatch (disjoint : facts.equivalence.Disjoint)
    (matched : isMatch facts required delivered = true) (order : ValueOrder)
    (hold : facts.HoldIn ts) (arranged : Arranged order delivered ts) :
    Arranged order required ts := by
  have normal : Arranged order (normalize facts delivered) ts :=
    (arrangedAfter_normalizeAfter disjoint hold delivered rfl).mpr arranged
  have provided : Arranged order (normalize facts required) ts :=
    arrangedAfter_of_provides disjoint hold rfl matched normal
  exact (arrangedAfter_normalizeAfter disjoint hold required rfl).mp provided

/-- Integers are compared by their values, all other values only with themselves. -/
def integerOrder : ValueOrder where
  le x y := x = y ∨
    ∃ a b, x = some (.integer .int64 a) ∧ y = some (.integer .int64 b) ∧ a ≤ b
  refl _ := .inl rfl
  antisymm := by
    rintro x y (same | ⟨a, b, rfl, rfl, before⟩) (same' | ⟨c, d, shape, shape', after⟩)
    · exact same
    · exact same
    · exact same'.symm
    · cases shape
      cases shape'
      rw [Int.le_antisymm before after]

/-- Values of the first, second, third and fifth variable. -/
def sampleRow (a b c d : Int) : Tuple :=
  Tuple.empty.extend [1, 2, 3, 5]
    [.integer .int64 a, .integer .int64 b, .integer .int64 c, .integer .int64 d]

/-- The second variable depends on the first, and the third and the fifth are equal. -/
def sampleFacts : Facts := ⟨({} : Equivalence).merge 3 5, [.ofLists [1] [2]]⟩

/-- Tuples in the order of the first and the third variable are grouped by the first two and, inside
    of the groups, in the order of the fifth. -/
theorem arranged_of_isMatch_sample :
    isMatch sampleFacts [grouping (.ofList [1, 2]), .order ⟨5, .desc⟩]
      [.order ⟨1, .asc⟩, .order ⟨3, .desc⟩] = true ∧
    Arranged integerOrder [grouping (.ofList [1, 2]), .order ⟨5, .desc⟩]
      [sampleRow 1 7 9 9, sampleRow 1 7 4 4, sampleRow 2 8 5 5] := by
  have disjoint : sampleFacts.equivalence.Disjoint := Equivalence.Disjoint.empty.merge
  have matched : isMatch sampleFacts [grouping (.ofList [1, 2]), .order ⟨5, .desc⟩]
    [.order ⟨1, .asc⟩, .order ⟨3, .desc⟩] = true := by decide
  refine ⟨matched, arranged_of_isMatch disjoint matched integerOrder ⟨fun t ht => ?_, ?_⟩ ?_⟩
  · refine (Equivalence.HoldsIn.empty t).merge ?_
    fin_cases ht <;> rfl
  · intro d member t ht u hu agree v inTail
    cases List.mem_singleton.mp member
    have head := agree 1 (by decide)
    rw [List.mem_singleton.mp (VarSet.mem_ofList.mp inTail)]
    revert head
    fin_cases ht <;> fin_cases hu <;> decide
  · simp [Arranged, ArrangedAfter, HoldsAmong, Direction.Allows, integerOrder, Tuple.AgreeOn, sampleRow,
      columns, Tuple.extend, List.lookup]

end LocalProperty

end QueryOptimizer
