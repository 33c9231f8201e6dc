import Mathlib
import QueryOptimizer.Expr.Conjunction
import QueryOptimizer.Operator.Basic

/-! # Values of expressions

A tuple gives values to variables. What the functions compute is left open: an interpretation says
which results a call may have. Calls of deterministic functions have at most one result, an
equality is only true of identical values, and a conjunction only if all its parts are true.
-/

namespace QueryOptimizer

/-- A tuple gives values to some variables. -/
abbrev Tuple := Var → Option Scalar

namespace Tuple

def empty : Tuple := fun _ => none

/-- The tuple with the values of further variables. -/
def extend (t : Tuple) (vs : List Var) (xs : List Scalar) : Tuple :=
  fun v => ((vs.zip xs).lookup v).or (t v)

/-- The tuple without all other variables. -/
def restrict (t : Tuple) (vs : List Var) : Tuple := fun v => if v ∈ vs then t v else none

/-- The values that one tuple has of some variables, and another of all others. -/
def join (vs : List Var) (t u : Tuple) : Tuple := fun v => if v ∈ vs then t v else u v

/-- Whether a tuple has values of these variables only. -/
def Within (t : Tuple) (vs : List Var) : Prop := ∀ v ∉ vs, t v = none

/-- Whether two tuples have the same values of some variables. -/
def AgreeOn (t u : Tuple) (vs : List Var) : Prop := ∀ v ∈ vs, t v = u v

section

variable {vs : List Var} {v : Var} {xs : List Scalar}

theorem join_of_mem {t u : Tuple} (member : v ∈ vs) : join vs t u v = t v := if_pos member

theorem join_of_not_mem {t u : Tuple} (absent : v ∉ vs) : join vs t u v = u v := if_neg absent

theorem restrict_of_mem {t : Tuple} (member : v ∈ vs) : t.restrict vs v = t v := if_pos member

theorem lookup_zip_none (absent : v ∉ vs) : (vs.zip xs).lookup v = none := by
  induction vs generalizing xs with
  | nil => rfl
  | cons w vs ih =>
    cases xs with
    | nil => rfl
    | cons x xs =>
      obtain ⟨different, rest⟩ := List.ne_and_not_mem_of_not_mem_cons absent
      rw [List.zip_cons_cons, List.lookup_cons, beq_eq_false_iff_ne.mpr different]
      exact ih rest

theorem extend_of_not_mem {t : Tuple} (absent : v ∉ vs) : t.extend vs xs v = t v := by
  simp [extend, lookup_zip_none absent]

theorem lookup_zip (once : vs.Nodup) {i : Nat} (var : vs[i]? = some v) :
    (vs.zip xs).lookup v = xs[i]? := by
  induction vs generalizing xs i with
  | nil => cases var
  | cons w vs ih =>
    obtain ⟨fresh, once⟩ := List.nodup_cons.mp once
    cases xs with
    | nil => rfl
    | cons y xs =>
      cases i with
      | zero =>
        cases var
        rw [List.zip_cons_cons, List.lookup_cons, beq_self_eq_true]
        rfl
      | succ i =>
        have member : v ∈ vs := List.mem_of_getElem? var
        have different : v ≠ w := fun same => fresh (same ▸ member)
        rw [List.zip_cons_cons, List.lookup_cons, beq_eq_false_iff_ne.mpr different]
        exact ih once var

/-- A variable that is listed once has the value at its position. -/
theorem extend_getElem {t : Tuple} (once : vs.Nodup) {i : Nat} {x : Scalar} (var : vs[i]? = some v)
    (value : xs[i]? = some x) : t.extend vs xs v = some x := by
  simp [extend, lookup_zip once var, value]

theorem extend_getElem? {t : Tuple} (once : vs.Nodup) {i : Nat} (var : vs[i]? = some v)
    (absent : t v = none) : t.extend vs xs v = xs[i]? := by
  simp [extend, lookup_zip once var, absent]

end

theorem Within.restrict (t : Tuple) (vs : List Var) : (t.restrict vs).Within vs :=
  fun _ absent => if_neg absent

theorem Within.eq_of_agreeOn {t u : Tuple} {vs : List Var} (ht : t.Within vs) (hu : u.Within vs)
    (agree : t.AgreeOn u vs) : t = u := by
  funext v
  by_cases member : v ∈ vs
  · exact agree v member
  · rw [ht v member, hu v member]

end Tuple

/-- What functions, scripts and data sources stand for. -/
structure Interpretation where
  /-- The results that a call may have. -/
  returns : Function → List Scalar → Scalar → Prop
  /-- The results that an aggregate may have over a list of tuples. -/
  folds : Expr → List Tuple → Scalar → Prop
  /-- The items of a collection. -/
  items : Scalar → List Scalar
  /-- Whether the first value may stand before the second in ascending order. -/
  ascends : Scalar → Scalar → Bool
  /-- The tuples that a script may make of its input. -/
  scripts : String → List Tuple → List (List Scalar) → Prop
  /-- The stored rows of a data source. -/
  rows : String → List (List Scalar)
  returns_unique : ∀ {f xs x y}, f.isDeterministic = true → returns f xs x → returns f xs y → x = y
  folds_unique : ∀ {e ts x y}, e.isDeterministic = true → folds e ts x → folds e ts y → x = y
  eq_identical : ∀ {x y}, returns .eq [x, y] (.boolean true) → x = y
  and_all : ∀ {xs}, returns .and xs (.boolean true) → ∀ x ∈ xs, x = .boolean true

namespace Expr

variable {I : Interpretation} {t u : Tuple}

mutual
/-- The values that an expression may have in a tuple. -/
def Evaluates (I : Interpretation) (t : Tuple) : Expr → Scalar → Prop
  | const value, x => x = value
  | var v, x => t v = some x
  | call f args _, x => ∃ xs, EvaluateTo I t args xs ∧ I.returns f xs x

/-- The lists of values that some expressions may have in a tuple. -/
def EvaluateTo (I : Interpretation) (t : Tuple) : List Expr → List Scalar → Prop
  | [], xs => xs = []
  | e :: es, xs => ∃ y ys, xs = y :: ys ∧ Evaluates I t e y ∧ EvaluateTo I t es ys
end

mutual
/-- An expression without nondeterministic calls has at most one value. -/
theorem Evaluates.unique {e : Expr} {x y : Scalar} (deterministic : e.isDeterministic = true)
    (hx : e.Evaluates I t x) (hy : e.Evaluates I t y) : x = y := by
  cases e with
  | const value => exact hx.trans hy.symm
  | var v => exact Option.some.inj (hx.symm.trans hy)
  | call f args hints =>
    obtain ⟨function, rest⟩ := Bool.and_eq_true_iff.mp deterministic
    obtain ⟨xs, hxs, hx⟩ := hx
    obtain ⟨ys, hys, hy⟩ := hy
    have same : xs = ys := EvaluateTo.unique rest hxs hys
    exact I.returns_unique function hx (same ▸ hy)

theorem EvaluateTo.unique {es : List Expr} {xs ys : List Scalar}
    (deterministic : allDeterministic es = true)
    (hx : EvaluateTo I t es xs) (hy : EvaluateTo I t es ys) : xs = ys := by
  cases es with
  | nil => exact hx.trans hy.symm
  | cons e es =>
    obtain ⟨first, rest⟩ := Bool.and_eq_true_iff.mp deterministic
    obtain ⟨x, xs, rfl, hx, hxs⟩ := hx
    obtain ⟨y, ys, rfl, hy, hys⟩ := hy
    rw [Evaluates.unique first hx hy, EvaluateTo.unique rest hxs hys]
end

mutual
/-- Tuples that agree on the variables of an expression give it the same values. -/
theorem Evaluates.congr {e : Expr} {x : Scalar} (agree : t.AgreeOn u e.occurrences)
    (value : e.Evaluates I t x) : e.Evaluates I u x := by
  cases e with
  | const c => exact value
  | var v => exact (agree v List.mem_cons_self).symm.trans value
  | call f args hints =>
    obtain ⟨xs, arguments, result⟩ := value
    exact ⟨xs, EvaluateTo.congr agree arguments, result⟩

theorem EvaluateTo.congr {es : List Expr} {xs : List Scalar}
    (agree : t.AgreeOn u (occurrencesList es)) (values : EvaluateTo I t es xs) :
    EvaluateTo I u es xs := by
  cases es with
  | nil => exact values
  | cons e es =>
    obtain ⟨x, xs, rfl, first, rest⟩ := values
    exact ⟨x, xs, rfl, first.congr fun v member => agree v (List.mem_append_left _ member),
      EvaluateTo.congr (fun v member => agree v (List.mem_append_right _ member)) rest⟩
end

mutual
/-- An expression only has a value where its variables have one. -/
theorem Evaluates.defined {e : Expr} {x : Scalar} (value : e.Evaluates I t x) :
    ∀ v ∈ e.occurrences, ∃ y, t v = some y := by
  cases e with
  | const c => intro v impossible; cases impossible
  | var w =>
    intro v occurs
    cases List.mem_singleton.mp occurs
    exact ⟨x, value⟩
  | call f args hints =>
    obtain ⟨xs, arguments, _⟩ := value
    exact EvaluateTo.defined arguments

theorem EvaluateTo.defined {es : List Expr} {xs : List Scalar} (values : EvaluateTo I t es xs) :
    ∀ v ∈ occurrencesList es, ∃ y, t v = some y := by
  cases es with
  | nil => intro v impossible; cases impossible
  | cons e es =>
    obtain ⟨x, xs, rfl, first, rest⟩ := values
    intro v occurs
    rcases List.mem_append.mp occurs with here | later
    · exact first.defined v here
    · exact EvaluateTo.defined rest v later
end

theorem EvaluateTo.getElem {es : List Expr} {xs : List Scalar} (values : EvaluateTo I t es xs)
    {i : Nat} {e : Expr} (position : es[i]? = some e) :
    ∃ x, xs[i]? = some x ∧ e.Evaluates I t x := by
  induction es generalizing xs i with
  | nil => cases position
  | cons first es ih =>
    obtain ⟨x, xs, rfl, value, rest⟩ := values
    cases i with
    | zero => cases position; exact ⟨x, rfl, value⟩
    | succ i => exact ih rest position

theorem EvaluateTo.length_eq {es : List Expr} {xs : List Scalar} (values : EvaluateTo I t es xs) :
    xs.length = es.length := by
  induction es generalizing xs with
  | nil => rw [show xs = [] from values]; rfl
  | cons first es ih =>
    obtain ⟨x, xs, rfl, value, rest⟩ := values
    rw [List.length_cons, List.length_cons, ih rest]

mutual
/-- All conjuncts of a condition that may be true may be true. -/
theorem Evaluates.conjunct {condition conjunct : Expr}
    (holds : condition.Evaluates I t (.boolean true)) (member : conjunct ∈ condition.conjuncts) :
    conjunct.Evaluates I t (.boolean true) := by
  cases condition with
  | const value => cases List.mem_singleton.mp member; exact holds
  | var v => cases List.mem_singleton.mp member; exact holds
  | call f args hints =>
    by_cases isAnd : f = .and
    · subst isAnd
      obtain ⟨xs, arguments, result⟩ := holds
      exact EvaluateTo.conjunct arguments (I.and_all result) (by simpa [conjuncts] using member)
    · rw [conjuncts_call isAnd] at member
      cases List.mem_singleton.mp member
      exact holds

theorem EvaluateTo.conjunct {es : List Expr} {xs : List Scalar} {conjunct : Expr}
    (values : EvaluateTo I t es xs) (true_ : ∀ x ∈ xs, x = .boolean true)
    (member : conjunct ∈ conjunctsList es) : conjunct.Evaluates I t (.boolean true) := by
  cases es with
  | nil => cases member
  | cons e es =>
    obtain ⟨x, xs, rfl, first, rest⟩ := values
    rcases List.mem_append.mp member with here | later
    · cases true_ x List.mem_cons_self
      exact first.conjunct here
    · exact EvaluateTo.conjunct rest (fun y inside => true_ y (List.mem_cons_of_mem _ inside)) later
end

end Expr

end QueryOptimizer
