import Mathlib
import QueryOptimizer.Proofs.Relational.Conditions
import QueryOptimizer.Proofs.Relational.Operators

/-! # Moving selects and limits

A deterministic select may be moved below a projection, an assignment that it does not read, a
stable sort and an exchange, below either side of an inner join and below the left side of a left
outer join. A limit may be moved below a projection and an assignment. The tuples stay the same, and
so does their order.
-/

namespace QueryOptimizer

variable {I : Interpretation} {condition : Expr} {ts us out : List Tuple} {p : Tuple → Bool}

/-! ## Deterministic selects -/

open Classical in
/-- Whether a condition may be true of a tuple. -/
noncomputable def Expr.holds (I : Interpretation) (condition : Expr) (t : Tuple) : Bool :=
  decide (condition.Evaluates I t (.boolean true))

theorem Expr.holds_congr {t u : Tuple} (agree : t.AgreeOn u condition.occurrences) :
    condition.holds I t = condition.holds I u := by
  unfold holds
  rw [decide_eq_decide, ← verdict_true_iff, ← verdict_true_iff]
  exact verdict_congr agree

theorem Expr.verdict_iff_holds (lawful : I.Lawful) (deterministic : condition.isDeterministic = true)
    {t : Tuple} (fills : t.Fills condition.occurrences) {b : Bool} :
    condition.Verdict I t b ↔ b = condition.holds I t := by
  obtain ⟨x, value⟩ := Evaluates.exists lawful fills
  constructor
  · rintro ⟨y, value', rfl⟩
    obtain rfl := value.unique deterministic value'
    unfold holds
    rw [decide_eq_decide]
    constructor
    · rintro rfl
      exact value
    · exact fun isTrue => value.unique deterministic isTrue
  · rintro rfl
    refine ⟨x, value, ?_⟩
    unfold holds
    rw [decide_eq_decide]
    constructor
    · exact fun isTrue => value.unique deterministic isTrue
    · rintro rfl
      exact value

/-- A deterministic select is a filter. -/
theorem selected_iff_filter (lawful : I.Lawful) (deterministic : condition.isDeterministic = true)
    (fills : ∀ t ∈ ts, t.Fills condition.occurrences) :
    Selected I condition ts out ↔ out = ts.filter (condition.holds I) := by
  rw [selected_iff]
  exact sifted_iff_filter fun t member b =>
    Expr.verdict_iff_holds lawful deterministic (fills t member)

/-! ## Sort keys -/

section Keys

variable {directions : List Direction} {xs ys zs : List Scalar}

theorem precedes_total (lawful : I.Lawful) (hx : xs.length = directions.length)
    (hy : ys.length = directions.length) :
    precedes I.ascends directions xs ys = true ∨ precedes I.ascends directions ys xs = true := by
  induction directions generalizing xs ys with
  | nil => exact .inl (by simp [precedes])
  | cons direction directions ih =>
    obtain ⟨x, xs, rfl⟩ := List.exists_cons_of_length_eq_add_one hx
    obtain ⟨y, ys, rfl⟩ := List.exists_cons_of_length_eq_add_one hy
    simp only [List.length_cons, Nat.add_right_cancel_iff] at hx hy
    by_cases same : x = y
    · subst same
      simpa [precedes] using ih hx hy
    · cases direction with
      | asc => simpa [precedes, same, Ne.symm same] using lawful.ascends_total x y
      | desc => simpa [precedes, same, Ne.symm same] using lawful.ascends_total y x

theorem precedes_trans (lawful : I.Lawful) (hx : xs.length = directions.length)
    (hy : ys.length = directions.length) (hz : zs.length = directions.length)
    (first : precedes I.ascends directions xs ys = true)
    (second : precedes I.ascends directions ys zs = true) :
    precedes I.ascends directions xs zs = true := by
  induction directions generalizing xs ys zs with
  | nil => simp [precedes]
  | cons direction directions ih =>
    obtain ⟨x, xs, rfl⟩ := List.exists_cons_of_length_eq_add_one hx
    obtain ⟨y, ys, rfl⟩ := List.exists_cons_of_length_eq_add_one hy
    obtain ⟨z, zs, rfl⟩ := List.exists_cons_of_length_eq_add_one hz
    simp only [List.length_cons, Nat.add_right_cancel_iff] at hx hy hz
    by_cases xy : x = y
    · subst xy
      by_cases xz : x = z
      · subst xz
        simp only [precedes, if_true] at first second ⊢
        exact ih hx hy hz first second
      · simpa [precedes, xz] using second
    · by_cases yz : y = z
      · subst yz
        simpa [precedes, xy] using first
      · -- The first keys decide, and they cannot return to where they started.
        cases direction with
        | asc =>
          have one : I.ascends x y = true := by simpa [precedes, xy] using first
          have two : I.ascends y z = true := by simpa [precedes, yz] using second
          have xz : x ≠ z := fun same => xy (lawful.ascends_antisymm x y one (same ▸ two))
          simpa [precedes, xz] using lawful.ascends_trans x y z one two
        | desc =>
          have one : I.ascends y x = true := by simpa [precedes, xy] using first
          have two : I.ascends z y = true := by simpa [precedes, yz] using second
          have xz : x ≠ z := fun same => xy (lawful.ascends_antisymm x y (same ▸ two) one)
          simpa [precedes, xz] using lawful.ascends_trans z y x two one

/-- Sorting by keys of the right length and then filtering is filtering and then sorting. -/
theorem filter_sorted (lawful : I.Lawful) {entries : List (Tuple × List Scalar)}
    (length : ∀ entry ∈ entries, entry.2.length = directions.length)
    (q : Tuple × List Scalar → Bool) :
    (entries.mergeSort fun a b => precedes I.ascends directions a.2 b.2).filter q =
      (entries.filter q).mergeSort fun a b => precedes I.ascends directions a.2 b.2 := by
  -- Rows of another length come last, which makes the comparison an order of all rows.
  let le : Tuple × List Scalar → Tuple × List Scalar → Bool := fun a b =>
    if b.2.length = directions.length then
      decide (a.2.length = directions.length) && precedes I.ascends directions a.2 b.2
    else true
  have total : ∀ a b, (le a b || le b a) = true := by
    intro a b
    by_cases ha : a.2.length = directions.length
    · by_cases hb : b.2.length = directions.length
      · simpa [le, ha, hb] using precedes_total lawful ha hb
      · simp [le, hb]
    · simp [le, ha]
  have trans : ∀ a b c, le a b = true → le b c = true → le a c = true := by
    intro a b c first second
    by_cases hc : c.2.length = directions.length
    · obtain ⟨hb, second⟩ : b.2.length = directions.length ∧ _ := by simpa [le, hc] using second
      obtain ⟨ha, first⟩ : a.2.length = directions.length ∧ _ := by simpa [le, hb] using first
      simpa [le, hc, ha] using precedes_trans lawful ha hb hc first second
    · simp [le, hc]
  have same : ∀ l : List (Tuple × List Scalar),
      (∀ entry ∈ l, entry.2.length = directions.length) →
      (l.mergeSort fun a b => precedes I.ascends directions a.2 b.2) = l.mergeSort le := by
    intro l each
    have mapped := List.map_mergeSort (f := id) (l := l) (s := le)
      (r := fun a b => precedes I.ascends directions a.2 b.2) fun a ha b hb => by
        simp [le, each a ha, each b hb]
    simpa using mapped
  rw [same entries length, same (entries.filter q) fun entry member =>
    length entry (List.mem_filter.mp member).1]
  exact filter_mergeSort trans total entries

end Keys

/-! ## Operators with one input -/

namespace Operator

/-- The tuples that an operator with one input may make of some tuples. -/
def Turns (I : Interpretation) (op : Operator) (ts out : List Tuple) : Prop :=
  op.Emits I (fun _ => []) (fun _ => ts) out

/-- An operator with one input reads nothing but the tuples of its input. -/
theorem emits_iff_turns {op : Operator} (plain : op.IsPlain) (arity : op.arity = 1)
    {columns : Nat → List Var} {ins : Nat → List Tuple} :
    op.Emits I columns ins out ↔ op.Turns I (ins 0) out := by
  cases op with
  | emptySource | join | unionAll => cases arity
  | nestedSource | groupBy | subplan => exact plain.elim
  | _ => exact Iff.rfl

theorem turns_select : (select condition).Turns I ts out ↔ Selected I condition ts out := Iff.rfl

/-- Whether an operator may be moved from above another one to below it. -/
def Commutes (I : Interpretation) (op moved : Operator) (ts : List Tuple) : Prop :=
  ∀ out, (∃ mid, op.Turns I ts mid ∧ moved.Turns I mid out) ↔
    ∃ mid, moved.Turns I ts mid ∧ op.Turns I mid out

theorem commutes_exchange {moved : Operator} : exchange.Commutes I moved ts := by
  intro out
  constructor
  · rintro ⟨mid, rfl, turns⟩
    exact ⟨out, turns, rfl⟩
  · rintro ⟨mid, turns, rfl⟩
    exact ⟨ts, rfl, turns⟩

theorem commutes_project {vars : List Var} (reads : ∀ v ∈ condition.occurrences, v ∈ vars) :
    (project vars).Commutes I (select condition) ts := by
  have same : ∀ t ∈ ts, ∀ b, condition.Verdict I (t.restrict vars) b ↔ condition.Verdict I t b :=
    fun t _ b => Expr.verdict_congr fun v occurs => Tuple.restrict_of_mem (reads v occurs)
  intro out
  constructor
  · rintro ⟨mid, rfl, selected⟩
    obtain ⟨kept, sifted, rfl⟩ := sifted_map.mp (selected_iff.mp selected)
    exact ⟨kept, selected_iff.mpr ((sifted_congr same).mp sifted), rfl⟩
  · rintro ⟨mid, selected, rfl⟩
    refine ⟨_, rfl, selected_iff.mpr (sifted_map.mpr ⟨mid, ?_, rfl⟩)⟩
    exact (sifted_congr same).mpr (selected_iff.mp selected)

section Deterministic

variable (lawful : I.Lawful) (deterministic : condition.isDeterministic = true)
  (fills : ∀ t ∈ ts, t.Fills condition.occurrences)

include lawful deterministic fills

theorem commutes_assign {vars : List Var} {exprs : List Expr}
    (apart : ∀ v ∈ condition.occurrences, v ∉ vars)
    (filled : ∀ t ∈ ts, t.Fills (Expr.occurrencesList exprs)) :
    (assign vars exprs).Commutes I (select condition) ts := by
  have agree : ∀ (t : Tuple) (row : List Scalar),
      (t.extend vars row).AgreeOn t condition.occurrences := fun t row v occurs =>
    Tuple.extend_of_not_mem (apart v occurs)
  have total : ∀ t ∈ ts, ∃ row, Expr.EvaluateTo I t exprs row := fun t member =>
    Expr.EvaluateTo.exists lawful (filled t member)
  have labels := fun out => exists_labels_filter_iff (p := condition.holds I) total
    (fun entries => entries.map fun entry => entry.1.extend vars entry.2) out
  intro out
  simp only [turns_select]
  have below : (∃ mid, Selected I condition ts mid ∧ (assign vars exprs).Turns I mid out) ↔
      ∃ rows, List.Forall₂ (fun t row => Expr.EvaluateTo I t exprs row)
          (ts.filter (condition.holds I)) rows ∧
        out = ((ts.filter (condition.holds I)).zip rows).map fun entry =>
          entry.1.extend vars entry.2 := by
    simp only [selected_iff_filter lawful deterministic fills, exists_eq_left]
    rfl
  rw [below, ← labels out]
  constructor
  · rintro ⟨mid, ⟨rows, values, rfl⟩, selected⟩
    refine ⟨rows, values, ?_⟩
    rw [selected_iff_filter lawful deterministic] at selected
    · rw [selected, List.filter_map]
      congr 2
      funext entry
      exact Expr.holds_congr (agree entry.1 entry.2)
    · intro t member v occurs
      obtain ⟨⟨u, row⟩, zipped, rfl⟩ := List.mem_map.mp member
      rw [agree u row v occurs]
      exact fills u (List.of_mem_zip zipped).1 v occurs
  · rintro ⟨rows, values, rfl⟩
    refine ⟨_, ⟨rows, values, rfl⟩, ?_⟩
    rw [selected_iff_filter lawful deterministic]
    · rw [List.filter_map]
      congr 2
      funext entry
      exact (Expr.holds_congr (agree entry.1 entry.2)).symm
    · intro t member v occurs
      obtain ⟨⟨u, row⟩, zipped, rfl⟩ := List.mem_map.mp member
      rw [agree u row v occurs]
      exact fills u (List.of_mem_zip zipped).1 v occurs

theorem commutes_order {keys : List (Direction × Expr)}
    (filled : ∀ t ∈ ts, t.Fills (Expr.occurrencesList (keys.map (·.2)))) :
    (order keys none).Commutes I (select condition) ts := by
  have total : ∀ t ∈ ts, ∃ row, Expr.EvaluateTo I t (keys.map (·.2)) row := fun t member =>
    Expr.EvaluateTo.exists lawful (filled t member)
  have labels := fun out => exists_labels_filter_iff (p := condition.holds I) total
    (fun entries => (entries.mergeSort fun a b =>
      precedes I.ascends (keys.map (·.1)) a.2 b.2).map (·.1)) out
  -- Without a bound on the number of tuples all sorted tuples are taken.
  have turns : ∀ ts out, (order keys none).Turns I ts out ↔
      ∃ rows, Evaluated I (keys.map (·.2)) ts rows ∧ out = ((ts.zip rows).mergeSort fun a b =>
        precedes I.ascends (keys.map (·.1)) a.2 b.2).map (·.1) := by
    intro ts out
    simp only [Turns, Emits, Option.getD_none, List.take_length]
  intro out
  simp only [turns_select]
  have below : (∃ mid, Selected I condition ts mid ∧ (order keys none).Turns I mid out) ↔
      ∃ rows, List.Forall₂ (fun t row => Expr.EvaluateTo I t (keys.map (·.2)) row)
          (ts.filter (condition.holds I)) rows ∧
        out = (((ts.filter (condition.holds I)).zip rows).mergeSort fun a b =>
          precedes I.ascends (keys.map (·.1)) a.2 b.2).map (·.1) := by
    simp only [selected_iff_filter lawful deterministic fills, exists_eq_left, turns]
    rfl
  have sorted : ∀ rows, Evaluated I (keys.map (·.2)) ts rows →
      (((ts.zip rows).mergeSort fun a b => precedes I.ascends (keys.map (·.1)) a.2 b.2).map
        (·.1)).filter (condition.holds I) =
      (((ts.zip rows).filter fun entry => condition.holds I entry.1).mergeSort fun a b =>
        precedes I.ascends (keys.map (·.1)) a.2 b.2).map (·.1) := by
    intro rows values
    rw [List.filter_map, Function.comp_def]
    congr 1
    refine filter_sorted lawful (fun entry member => ?_) _
    rw [(List.forall₂_zip values member).length_eq, List.length_map, List.length_map]
  have filledOut : ∀ rows, ∀ t ∈ ((ts.zip rows).mergeSort fun a b =>
      precedes I.ascends (keys.map (·.1)) a.2 b.2).map (·.1), t.Fills condition.occurrences := by
    intro rows t member
    obtain ⟨⟨u, row⟩, inside, rfl⟩ := List.mem_map.mp member
    exact fills u (List.of_mem_zip (List.mem_mergeSort.mp inside)).1
  rw [below, ← labels out]
  constructor
  · rintro ⟨mid, made, selected⟩
    obtain ⟨rows, values, rfl⟩ := (turns ts mid).mp made
    refine ⟨rows, values, ?_⟩
    rw [(selected_iff_filter lawful deterministic (filledOut rows)).mp selected, sorted rows values]
  · rintro ⟨rows, values, rfl⟩
    refine ⟨_, (turns ts _).mpr ⟨rows, values, rfl⟩, ?_⟩
    rw [selected_iff_filter lawful deterministic (filledOut rows), sorted rows values]

end Deterministic

/-! ## Limits -/

theorem turns_limit {count : Nat} {offset : Option Nat} :
    (limit count offset).Turns I ts out ↔ out = (ts.drop (offset.getD 0)).take count := Iff.rfl

theorem commutes_project_limit {vars : List Var} {count : Nat} {offset : Option Nat} :
    (project vars).Commutes I (limit count offset) ts := by
  intro out
  simp only [turns_limit]
  constructor
  · rintro ⟨mid, rfl, rfl⟩
    exact ⟨_, rfl, by rw [← List.map_drop, ← List.map_take]; rfl⟩
  · rintro ⟨mid, rfl, rfl⟩
    exact ⟨_, rfl, by rw [← List.map_drop, ← List.map_take]⟩

/-- A limit below an assignment counts the same tuples, if each of them gets its values. -/
theorem commutes_assign_limit {vars : List Var} {exprs : List Expr} {count : Nat}
    {offset : Option Nat} (total : ∀ t ∈ ts, ∃ row, Expr.EvaluateTo I t exprs row) :
    (assign vars exprs).Commutes I (limit count offset) ts := by
  have window : ∀ rows : List (List Scalar),
      (((ts.zip rows).map fun entry => entry.1.extend vars entry.2).drop (offset.getD 0)).take count =
        (((ts.drop (offset.getD 0)).take count).zip ((rows.drop (offset.getD 0)).take count)).map
          fun entry => entry.1.extend vars entry.2 := by
    intro rows
    rw [← List.map_drop, ← List.map_take, List.zip, List.drop_zipWith, List.take_zipWith]
  intro out
  simp only [turns_limit]
  constructor
  · rintro ⟨mid, ⟨rows, values, rfl⟩, rfl⟩
    exact ⟨_, rfl, _, List.forall₂_take count (List.forall₂_drop (offset.getD 0) values), window rows⟩
  · rintro ⟨mid, rfl, kept, values, rfl⟩
    obtain ⟨rows, all, rfl⟩ := exists_forall₂_of_window total values
    exact ⟨_, ⟨rows, all, rfl⟩, (window rows).symm⟩

end Operator

/-! ## Joins -/

/-- The pairs of two lists of tuples in the order of a nested loop. -/
def pairs (left : List Var) (ts us : List Tuple) : List Tuple :=
  ts.flatMap fun t => us.map fun u => Tuple.join left t u

theorem mem_pairs {left : List Var} {o : Tuple} :
    o ∈ pairs left ts us ↔ ∃ t ∈ ts, ∃ u ∈ us, o = Tuple.join left t u := by
  simp only [pairs, List.mem_flatMap, List.mem_map, eq_comm]

theorem filter_pairs_left {left : List Var} (same : ∀ t u, p (Tuple.join left t u) = p t) :
    (pairs left ts us).filter p = pairs left (ts.filter p) us := by
  refine filter_flatMap_of_uniform fun t _ o member => ?_
  obtain ⟨u, _, rfl⟩ := List.mem_map.mp member
  exact same t u

theorem filter_pairs_right {left : List Var} (same : ∀ t u, p (Tuple.join left t u) = p u) :
    (pairs left ts us).filter p = pairs left ts (us.filter p) := by
  unfold pairs
  rw [List.filter_flatMap]
  congr 1
  funext t
  rw [List.filter_map]
  congr 2
  funext u
  exact same t u

namespace Operator

/-- Whether a select may be moved from above an operator onto one of its inputs. -/
def PassesSide (I : Interpretation) (op : Operator) (condition : Expr) (columns : Nat → List Var)
    (ins : Nat → List Tuple) (side : Nat) : Prop :=
  ∀ out, (∃ mid, op.Emits I columns ins mid ∧ Selected I condition mid out) ↔
    ∃ kept, Selected I condition (ins side) kept ∧
      op.Emits I columns (Function.update ins side kept) out

variable {joined : Expr} {columns : Nat → List Var} {ins : Nat → List Tuple}

/-- What a join is given: the columns of its sides have values, and its condition reads them
    alone. -/
structure Joinable (joined : Expr) (columns : Nat → List Var) (ins : Nat → List Tuple) : Prop where
  left : ∀ t ∈ ins 0, t.Fills (columns 0)
  right : ∀ u ∈ ins 1, u.Fills (columns 1)
  reads : ∀ v ∈ joined.occurrences, v ∈ columns 0 ∨ v ∈ columns 1

theorem Joinable.fills (joinable : Joinable joined columns ins) {t u : Tuple} (left : t ∈ ins 0)
    (right : u ∈ ins 1) {vs : List Var} (either : ∀ v ∈ vs, v ∈ columns 0 ∨ v ∈ columns 1) :
    (Tuple.join (columns 0) t u).Fills vs := by
  intro v member
  by_cases onLeft : v ∈ columns 0
  · rw [Tuple.join_of_mem onLeft]
    exact joinable.left t left v onLeft
  · rw [Tuple.join_of_not_mem onLeft]
    exact joinable.right u right v ((either v member).resolve_left onLeft)

section Joins

variable (lawful : I.Lawful) (deterministic : condition.isDeterministic = true)
  (joinable : Joinable joined columns ins)

include lawful deterministic joinable

/-- A select over an inner join filters the pairs first. -/
theorem select_inner_iff (reads : ∀ v ∈ condition.occurrences, v ∈ columns 0 ∨ v ∈ columns 1) :
    (∃ mid, (join .inner joined).Emits I columns ins mid ∧ Selected I condition mid out) ↔
      Selected I joined
        ((pairs (columns 0) (ins 0) (ins 1)).filter (condition.holds I)) out := by
  have filled : ∀ {vs : List Var}, (∀ v ∈ vs, v ∈ columns 0 ∨ v ∈ columns 1) →
      ∀ o ∈ pairs (columns 0) (ins 0) (ins 1), o.Fills vs := by
    intro vs either o member
    obtain ⟨t, left, u, right, rfl⟩ := mem_pairs.mp member
    exact joinable.fills left right either
  have swapped : (∃ mid, Selected I joined (pairs (columns 0) (ins 0) (ins 1)) mid ∧
        Selected I condition mid out) ↔
      ∃ mid, Selected I condition (pairs (columns 0) (ins 0) (ins 1)) mid ∧
        Selected I joined mid out := by
    simp only [selected_iff]
    exact sifted_comm
      (fun o member => Expr.Verdict.exists lawful (filled joinable.reads o member))
      (fun o member => Expr.Verdict.exists lawful (filled reads o member))
  refine swapped.trans ?_
  simp only [selected_iff_filter lawful deterministic (filled reads), exists_eq_left]

theorem passesSide_inner_left (reads : ∀ v ∈ condition.occurrences, v ∈ columns 0) :
    (join .inner joined).PassesSide I condition columns ins 0 := by
  intro out
  have same : ∀ t u, condition.holds I (Tuple.join (columns 0) t u) = condition.holds I t :=
    fun t u => Expr.holds_congr fun v occurs => Tuple.join_of_mem (reads v occurs)
  rw [select_inner_iff lawful deterministic joinable fun v occurs => .inl (reads v occurs),
    filter_pairs_left same]
  have filter : ∀ kept, Selected I condition (ins 0) kept ↔
      kept = (ins 0).filter (condition.holds I) := fun kept =>
    selected_iff_filter lawful deterministic fun t member => (joinable.left t member).mono reads
  simp only [filter, exists_eq_left]
  rfl

theorem passesSide_inner_right (apart : ∀ v ∈ columns 0, v ∉ columns 1)
    (reads : ∀ v ∈ condition.occurrences, v ∈ columns 1) :
    (join .inner joined).PassesSide I condition columns ins 1 := by
  intro out
  have same : ∀ t u, condition.holds I (Tuple.join (columns 0) t u) = condition.holds I u :=
    fun t u => Expr.holds_congr fun v occurs =>
      Tuple.join_of_not_mem fun onLeft => apart v onLeft (reads v occurs)
  rw [select_inner_iff lawful deterministic joinable fun v occurs => .inr (reads v occurs),
    filter_pairs_right same]
  have filter : ∀ kept, Selected I condition (ins 1) kept ↔
      kept = (ins 1).filter (condition.holds I) := fun kept =>
    selected_iff_filter lawful deterministic fun u member => (joinable.right u member).mono reads
  simp only [filter, exists_eq_left]
  rfl

/-- The tuples of a left outer join for one tuple of its left side. -/
def outerBlock (columns : Nat → List Var) (entry : Tuple × List Tuple) : List Tuple :=
  if entry.2.isEmpty then
    [Tuple.join (columns 0) entry.1 (Tuple.empty.extend (columns 1)
      ((columns 1).map fun _ => .null .null))]
  else entry.2

theorem passesSide_outer_left (reads : ∀ v ∈ condition.occurrences, v ∈ columns 0) :
    (join .leftOuter joined).PassesSide I condition columns ins 0 := by
  have same : ∀ t u, condition.holds I (Tuple.join (columns 0) t u) = condition.holds I t :=
    fun t u => Expr.holds_congr fun v occurs => Tuple.join_of_mem (reads v occurs)
  have total : ∀ t ∈ ins 0, ∃ block,
      Selected I joined ((ins 1).map fun u => Tuple.join (columns 0) t u) block := by
    intro t left
    simp only [selected_iff]
    refine Sifted.exists fun o member => ?_
    obtain ⟨u, right, rfl⟩ := List.mem_map.mp member
    exact Expr.Verdict.exists lawful (joinable.fills left right joinable.reads)
  -- All tuples that come from one tuple of the left side pass the select, or none.
  have uniform : ∀ entry : Tuple × List Tuple,
      Selected I joined ((ins 1).map fun u => Tuple.join (columns 0) entry.1 u) entry.2 →
      ∀ o ∈ outerBlock columns entry, ∃ u, o = Tuple.join (columns 0) entry.1 u := by
    intro entry selected o member
    unfold outerBlock at member
    split at member
    · exact ⟨_, List.mem_singleton.mp member⟩
    · obtain ⟨u, _, rfl⟩ := List.mem_map.mp (Selected.sound selected member).1
      exact ⟨u, rfl⟩
  have blocks : ∀ entries : List (Tuple × List Tuple),
      (∀ entry ∈ entries, Selected I joined
        ((ins 1).map fun u => Tuple.join (columns 0) entry.1 u) entry.2) →
      (entries.flatMap (outerBlock columns)).filter (condition.holds I) =
        (entries.filter fun entry => condition.holds I entry.1).flatMap (outerBlock columns) := by
    intro entries each
    refine filter_flatMap_of_uniform fun entry member o inside => ?_
    obtain ⟨u, rfl⟩ := uniform entry (each entry member) o inside
    exact same entry.1 u
  have labels := fun out => exists_labels_filter_iff (p := condition.holds I) total
    (fun entries => entries.flatMap (outerBlock columns)) out
  intro out
  have filter : ∀ kept, Selected I condition (ins 0) kept ↔
      kept = (ins 0).filter (condition.holds I) := fun kept =>
    selected_iff_filter lawful deterministic fun t member => (joinable.left t member).mono reads
  have below : (∃ kept, Selected I condition (ins 0) kept ∧
        (join .leftOuter joined).Emits I columns (Function.update ins 0 kept) out) ↔
      ∃ blocks, List.Forall₂ (fun t block =>
          Selected I joined ((ins 1).map fun u => Tuple.join (columns 0) t u) block)
          ((ins 0).filter (condition.holds I)) blocks ∧
        out = (((ins 0).filter (condition.holds I)).zip blocks).flatMap (outerBlock columns) := by
    simp only [filter, exists_eq_left]
    rfl
  have filled : ∀ blocks, List.Forall₂ (fun t block =>
        Selected I joined ((ins 1).map fun u => Tuple.join (columns 0) t u) block) (ins 0) blocks →
      ∀ o ∈ ((ins 0).zip blocks).flatMap (outerBlock columns), o.Fills condition.occurrences := by
    intro blocks each o member v occurs
    obtain ⟨entry, zipped, inside⟩ := List.mem_flatMap.mp member
    obtain ⟨u, rfl⟩ := uniform entry (List.forall₂_zip each zipped) o inside
    rw [Tuple.join_of_mem (reads v occurs)]
    exact joinable.left entry.1 (List.of_mem_zip zipped).1 v (reads v occurs)
  rw [below, ← labels out]
  constructor
  · rintro ⟨mid, ⟨found, each, rfl⟩, selected⟩
    refine ⟨found, each, ?_⟩
    rw [← blocks _ fun entry member => List.forall₂_zip each member]
    exact (selected_iff_filter lawful deterministic (filled found each)).mp selected
  · rintro ⟨found, each, rfl⟩
    refine ⟨_, ⟨found, each, rfl⟩, ?_⟩
    rw [← blocks _ fun entry member => List.forall₂_zip each member]
    exact (selected_iff_filter lawful deterministic (filled found each)).mpr rfl

end Joins

end Operator

end QueryOptimizer
