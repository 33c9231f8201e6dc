import Mathlib
import QueryOptimizer.Proofs.Relational.Sifting
import QueryOptimizer.Proofs.Variable

/-! # Conditions

What a condition says about a tuple: whether it may be true, and whether it may be something else. A
condition may be true if all its conjuncts may be true, and not true if one of them may not be, at
any depth of its calls of `and`.
-/

namespace QueryOptimizer

/-- Whether a tuple has values of some variables. -/
def Tuple.Fills (t : Tuple) (vs : List Var) : Prop := ∀ v ∈ vs, ∃ x, t v = some x

theorem Tuple.Fills.mono {t : Tuple} {vs ws : List Var} (fills : t.Fills ws)
    (fewer : ∀ v ∈ vs, v ∈ ws) : t.Fills vs :=
  fun v member => fills v (fewer v member)

/-- What is expected of the functions and the order of values: every call has a result, a
    conjunction of truths is true, and values are ordered. -/
structure Interpretation.Lawful (I : Interpretation) : Prop where
  total : ∀ f xs, ∃ x, I.returns f xs x
  and_true : ∀ xs, (∀ x ∈ xs, x = .boolean true) → I.returns .and xs (.boolean true)
  ascends_total : ∀ x y, I.ascends x y = true ∨ I.ascends y x = true
  ascends_trans : ∀ x y z, I.ascends x y = true → I.ascends y z = true → I.ascends x z = true
  ascends_antisymm : ∀ x y, I.ascends x y = true → I.ascends y x = true → x = y

variable {I : Interpretation} {t u : Tuple} {b : Bool}

namespace Expr

theorem occurrencesList_eq (es : List Expr) : occurrencesList es = es.flatMap occurrences := by
  induction es with
  | nil => rfl
  | cons e es ih => rw [occurrencesList, ih, List.flatMap_cons]

theorem occurrencesList_append (es fs : List Expr) :
    occurrencesList (es ++ fs) = occurrencesList es ++ occurrencesList fs := by
  simp only [occurrencesList_eq, List.flatMap_append]

theorem mem_occurrencesList {es : List Expr} {e : Expr} {v : Var} (member : e ∈ es)
    (occurs : v ∈ e.occurrences) : v ∈ occurrencesList es := by
  rw [occurrencesList_eq]
  exact List.mem_flatMap.mpr ⟨e, member, occurs⟩

end Expr

/-- An operator reads the variables of its expressions. -/
theorem Operator.mem_used {op : Operator} {e : Expr} {v : Var} (member : e ∈ op.exprs)
    (occurs : v ∈ e.occurrences) : v ∈ op.used := by
  have listed := mem_distinct.mpr (Expr.mem_occurrencesList member occurs)
  cases op with
  | project | distinct | unionAll | script => cases member
  | _ => exact listed

namespace Expr

mutual
/-- An expression has a value where its variables have one. -/
theorem Evaluates.exists (lawful : I.Lawful) {e : Expr} (fills : t.Fills e.occurrences) :
    ∃ x, e.Evaluates I t x := by
  cases e with
  | const value => exact ⟨value, rfl⟩
  | var v => exact fills v List.mem_cons_self
  | call f args hints =>
    obtain ⟨xs, values⟩ := EvaluateTo.exists lawful fills
    obtain ⟨x, result⟩ := lawful.total f xs
    exact ⟨x, xs, values, result⟩

theorem EvaluateTo.exists (lawful : I.Lawful) {es : List Expr}
    (fills : t.Fills (occurrencesList es)) : ∃ xs, EvaluateTo I t es xs := by
  cases es with
  | nil => exact ⟨[], rfl⟩
  | cons e es =>
    obtain ⟨x, first⟩ := Evaluates.exists lawful
      (fills.mono fun v member => List.mem_append_left _ member)
    obtain ⟨xs, rest⟩ := EvaluateTo.exists lawful
      (fills.mono fun v member => List.mem_append_right _ member)
    exact ⟨x :: xs, x, xs, rfl, first, rest⟩
end

variable {condition : Expr} {conditions first second : List Expr}

/-- Whether a condition may be true of a tuple, or may be something else. -/
def Verdict (I : Interpretation) (condition : Expr) (t : Tuple) (b : Bool) : Prop :=
  ∃ x, condition.Evaluates I t x ∧ b = decide (x = .boolean true)

theorem verdict_true_iff : condition.Verdict I t true ↔ condition.Evaluates I t (.boolean true) := by
  constructor
  · rintro ⟨x, value, isTrue⟩
    rwa [of_decide_eq_true isTrue.symm] at value
  · exact fun value => ⟨_, value, by simp⟩

theorem verdict_false_iff :
    condition.Verdict I t false ↔ ∃ x, condition.Evaluates I t x ∧ x ≠ .boolean true := by
  constructor
  · rintro ⟨x, value, isFalse⟩
    exact ⟨x, value, of_decide_eq_false isFalse.symm⟩
  · rintro ⟨x, value, other⟩
    exact ⟨x, value, (decide_eq_false other).symm⟩

theorem Verdict.exists (lawful : I.Lawful) (fills : t.Fills condition.occurrences) :
    ∃ b, condition.Verdict I t b := by
  obtain ⟨x, value⟩ := Evaluates.exists lawful fills
  exact ⟨_, x, value, rfl⟩

theorem verdict_congr (agree : t.AgreeOn u condition.occurrences) :
    condition.Verdict I t b ↔ condition.Verdict I u b := by
  have agree' : u.AgreeOn t condition.occurrences := fun v member => (agree v member).symm
  exact ⟨fun ⟨x, value, verdict⟩ => ⟨x, value.congr agree, verdict⟩,
    fun ⟨x, value, verdict⟩ => ⟨x, value.congr agree', verdict⟩⟩

/-- The verdict of several conditions that all have to be true. -/
def VerdictOfAll (I : Interpretation) (conditions : List Expr) (t : Tuple) (b : Bool) : Prop :=
  b = true ∧ (∀ c ∈ conditions, c.Verdict I t true) ∨
    b = false ∧ ∃ c ∈ conditions, c.Verdict I t false

theorem verdictOfAll_true_iff :
    VerdictOfAll I conditions t true ↔ ∀ c ∈ conditions, c.Verdict I t true := by
  simp [VerdictOfAll]

theorem verdictOfAll_false_iff :
    VerdictOfAll I conditions t false ↔ ∃ c ∈ conditions, c.Verdict I t false := by
  simp [VerdictOfAll]

theorem verdictOfAll_single : VerdictOfAll I [condition] t b ↔ condition.Verdict I t b := by
  cases b <;> simp [VerdictOfAll]

theorem VerdictOfAll.exists (lawful : I.Lawful) (fills : t.Fills (occurrencesList conditions)) :
    ∃ b, VerdictOfAll I conditions t b := by
  by_cases dropped : ∃ c ∈ conditions, c.Verdict I t false
  · exact ⟨false, verdictOfAll_false_iff.mpr dropped⟩
  · refine ⟨true, verdictOfAll_true_iff.mpr fun c member => ?_⟩
    have inside : ∀ v ∈ c.occurrences, v ∈ occurrencesList conditions := fun v occurs =>
      mem_occurrencesList member occurs
    obtain ⟨b, verdict⟩ := Verdict.exists lawful (fills.mono inside)
    cases b with
    | true => exact verdict
    | false => exact absurd ⟨c, member, verdict⟩ dropped

theorem verdictOfAll_append_true :
    VerdictOfAll I (first ++ second) t true ↔
      VerdictOfAll I first t true ∧ VerdictOfAll I second t true := by
  simp only [verdictOfAll_true_iff, List.forall_mem_append]

theorem verdictOfAll_append_false :
    VerdictOfAll I (first ++ second) t false ↔
      VerdictOfAll I first t false ∨ VerdictOfAll I second t false := by
  simp only [verdictOfAll_false_iff, List.mem_append, or_and_right, exists_or]

/-- Conditions that are checked one after the other all have to be true. -/
theorem verdictOfAll_append (lawful : I.Lawful) (fills : t.Fills (occurrencesList second)) :
    VerdictOfAll I (first ++ second) t b ↔
      andThen (VerdictOfAll I second) (VerdictOfAll I first) t b := by
  unfold andThen
  cases b with
  | true => simp [verdictOfAll_append_true, and_comm]
  | false =>
    rw [verdictOfAll_append_false]
    constructor
    · rintro (inFirst | inSecond)
      · obtain ⟨b, verdict⟩ := VerdictOfAll.exists lawful fills
        cases b with
        | true => exact .inl ⟨verdict, inFirst⟩
        | false => exact .inr ⟨verdict, rfl⟩
      · exact .inr ⟨inSecond, rfl⟩
    · rintro (⟨_, inFirst⟩ | ⟨inSecond, _⟩)
      · exact .inl inFirst
      · exact .inr inSecond

/-! ## Conjunctions -/

mutual
/-- The conjuncts of a condition read what the condition reads. -/
theorem occurrencesList_conjuncts (e : Expr) : occurrencesList e.conjuncts = e.occurrences := by
  cases e with
  | const value => rfl
  | var v => rfl
  | call f args hints =>
    by_cases isAnd : f = .and
    · subst isAnd
      exact occurrencesList_conjunctsList args
    · rw [conjuncts_call isAnd]
      exact List.append_nil _

theorem occurrencesList_conjunctsList (es : List Expr) :
    occurrencesList (conjunctsList es) = occurrencesList es := by
  cases es with
  | nil => rfl
  | cons e es =>
    have first := occurrencesList_conjuncts e
    have rest := occurrencesList_conjunctsList es
    rw [occurrencesList_eq] at first rest
    rw [conjunctsList, occurrencesList_eq, List.flatMap_append, first, rest]
    rfl
end

/-- A conjunction is true of values that all are true, and of no others. -/
theorem and_result_iff (lawful : I.Lawful) {xs : List Scalar} {x : Scalar}
    (result : I.returns .and xs x) : x = .boolean true ↔ ∀ y ∈ xs, y = .boolean true := by
  constructor
  · rintro rfl
    exact I.and_all result
  · exact fun all => I.returns_unique (by decide) result (lawful.and_true xs all)

theorem verdict_and_true_iff (lawful : I.Lawful) {args : List Expr} {hints : Hints} :
    (call .and args hints).Verdict I t true ↔
      ∃ xs, EvaluateTo I t args xs ∧ ∀ x ∈ xs, x = .boolean true := by
  rw [verdict_true_iff]
  exact ⟨fun ⟨xs, values, result⟩ => ⟨xs, values, I.and_all result⟩,
    fun ⟨xs, values, all⟩ => ⟨xs, values, lawful.and_true xs all⟩⟩

theorem verdict_and_false_iff (lawful : I.Lawful) {args : List Expr} {hints : Hints} :
    (call .and args hints).Verdict I t false ↔
      ∃ xs, EvaluateTo I t args xs ∧ ∃ x ∈ xs, x ≠ .boolean true := by
  rw [verdict_false_iff]
  constructor
  · rintro ⟨x, ⟨xs, values, result⟩, other⟩
    refine ⟨xs, values, ?_⟩
    by_contra all
    push Not at all
    exact other ((and_result_iff lawful result).mpr all)
  · rintro ⟨xs, values, y, member, other⟩
    obtain ⟨x, result⟩ := lawful.total .and xs
    exact ⟨x, ⟨xs, values, result⟩, fun isTrue =>
      other ((and_result_iff lawful result).mp isTrue y member)⟩

theorem exists_evaluateTo_true_iff {es : List Expr} :
    (∃ xs, EvaluateTo I t es xs ∧ ∀ x ∈ xs, x = .boolean true) ↔
      ∀ e ∈ es, e.Verdict I t true := by
  induction es with
  | nil => simp [EvaluateTo]
  | cons e es ih =>
    rw [List.forall_mem_cons, ← ih, verdict_true_iff]
    constructor
    · rintro ⟨_, ⟨x, xs, rfl, first, rest⟩, all⟩
      obtain ⟨rfl, others⟩ := List.forall_mem_cons.mp all
      exact ⟨first, xs, rest, others⟩
    · rintro ⟨first, xs, rest, all⟩
      exact ⟨_, ⟨_, xs, rfl, first, rest⟩, List.forall_mem_cons.mpr ⟨rfl, all⟩⟩

theorem exists_evaluateTo_false_iff (lawful : I.Lawful) {es : List Expr}
    (fills : t.Fills (occurrencesList es)) :
    (∃ xs, EvaluateTo I t es xs ∧ ∃ x ∈ xs, x ≠ .boolean true) ↔
      ∃ e ∈ es, e.Verdict I t false := by
  induction es with
  | nil => simp [EvaluateTo]
  | cons e es ih =>
    have fillsFirst : t.Fills e.occurrences := fills.mono fun v member =>
      List.mem_append_left _ member
    have fillsRest : t.Fills (occurrencesList es) := fills.mono fun v member =>
      List.mem_append_right _ member
    rw [List.exists_mem_cons_iff, ← ih fillsRest, verdict_false_iff]
    constructor
    · rintro ⟨_, ⟨x, xs, rfl, first, rest⟩, y, member, other⟩
      rcases List.mem_cons.mp member with rfl | member
      · exact .inl ⟨y, first, other⟩
      · exact .inr ⟨xs, rest, y, member, other⟩
    · rintro (⟨x, first, other⟩ | ⟨xs, rest, y, member, other⟩)
      · obtain ⟨xs, rest⟩ := EvaluateTo.exists lawful fillsRest
        exact ⟨_, ⟨x, xs, rfl, first, rest⟩, x, List.mem_cons_self, other⟩
      · obtain ⟨x, first⟩ := Evaluates.exists lawful fillsFirst
        exact ⟨_, ⟨x, xs, rfl, first, rest⟩, y, List.mem_cons_of_mem _ member, other⟩

theorem verdict_and_iff (lawful : I.Lawful) {args : List Expr} {hints : Hints}
    (fills : t.Fills (occurrencesList args)) :
    (call .and args hints).Verdict I t b ↔ VerdictOfAll I args t b := by
  cases b with
  | true =>
    rw [verdict_and_true_iff lawful, exists_evaluateTo_true_iff, verdictOfAll_true_iff]
  | false =>
    rw [verdict_and_false_iff lawful, exists_evaluateTo_false_iff lawful fills,
      verdictOfAll_false_iff]

mutual
/-- The conjuncts of a condition say together what the condition says. -/
theorem verdict_iff_conjuncts (lawful : I.Lawful) {condition : Expr} {b : Bool}
    (fills : t.Fills condition.occurrences) :
    condition.Verdict I t b ↔ VerdictOfAll I condition.conjuncts t b := by
  cases condition with
  | const value => exact verdictOfAll_single.symm
  | var v => exact verdictOfAll_single.symm
  | call f args hints =>
    by_cases isAnd : f = .and
    · subst isAnd
      rw [verdict_and_iff lawful fills]
      exact verdictOfAll_iff_conjunctsList lawful fills
    · rw [conjuncts_call isAnd, verdictOfAll_single]

theorem verdictOfAll_iff_conjunctsList (lawful : I.Lawful) {es : List Expr} {b : Bool}
    (fills : t.Fills (occurrencesList es)) :
    VerdictOfAll I es t b ↔ VerdictOfAll I (conjunctsList es) t b := by
  cases es with
  | nil => rfl
  | cons e es =>
    have fillsFirst : t.Fills e.occurrences := fills.mono fun v member =>
      List.mem_append_left _ member
    have fillsRest : t.Fills (occurrencesList es) := fills.mono fun v member =>
      List.mem_append_right _ member
    rw [conjunctsList, ← List.singleton_append]
    cases b with
    | true =>
      rw [verdictOfAll_append_true, verdictOfAll_append_true, verdictOfAll_single,
        verdict_iff_conjuncts lawful fillsFirst,
        verdictOfAll_iff_conjunctsList lawful fillsRest]
    | false =>
      rw [verdictOfAll_append_false, verdictOfAll_append_false, verdictOfAll_single,
        verdict_iff_conjuncts lawful fillsFirst,
        verdictOfAll_iff_conjunctsList lawful fillsRest]
end

/-- A conjunction that is put together says what its parts say. -/
theorem verdict_conjunction (lawful : I.Lawful) {conditions : List Expr}
    (fills : t.Fills (occurrencesList conditions)) :
    (conjunction conditions).Verdict I t b ↔ VerdictOfAll I conditions t b := by
  match conditions with
  | [] => cases b <;> simp [conjunction, Verdict, VerdictOfAll, Evaluates]
  | [c] => exact verdictOfAll_single.symm
  | c :: d :: rest => exact verdict_and_iff lawful fills

theorem verdict_of_isTrue {condition : Expr} (isTrue : condition.isTrue = true) :
    condition.Verdict I t b ↔ b = true := by
  have shape : condition = const (.boolean true) := by
    unfold Expr.isTrue at isTrue
    split at isTrue
    · rw [isTrue]
    · cases isTrue
  subst shape
  simp [Verdict, Evaluates]

/-- Conditions that are always true can be left out. -/
theorem verdictOfAll_filter {conditions : List Expr} :
    VerdictOfAll I (conditions.filter (!·.isTrue)) t b ↔ VerdictOfAll I conditions t b := by
  cases b with
  | true =>
    simp only [verdictOfAll_true_iff, List.mem_filter, and_imp]
    refine forall₂_congr fun c member => ?_
    cases isTrue : c.isTrue with
    | false => simp
    | true => simp [verdict_of_isTrue isTrue]
  | false =>
    simp only [verdictOfAll_false_iff, List.mem_filter]
    refine exists_congr fun c => ?_
    cases isTrue : c.isTrue with
    | false => simp
    | true => simp [verdict_of_isTrue isTrue]

end Expr


variable {ts out : List Tuple}
/-- A select keeps or drops every tuple by itself. -/
theorem selected_iff {condition : Expr} :
    Selected I condition ts out ↔ Sifted (condition.Verdict I) ts out := by
  constructor
  · rintro ⟨verdicts, values, rfl⟩
    induction values with
    | nil => exact .nil
    | @cons t x ts verdicts value _ ih =>
      by_cases isTrue : x = .boolean true
      · subst isTrue
        simpa using Sifted.keep (Expr.verdict_true_iff.mpr value) ih
      · simpa [isTrue] using Sifted.drop (Expr.verdict_false_iff.mpr ⟨x, value, isTrue⟩) ih
  · intro sifted
    induction sifted with
    | nil => exact ⟨[], .nil, rfl⟩
    | keep verdict _ ih =>
      obtain ⟨verdicts, values, rfl⟩ := ih
      exact ⟨_ :: verdicts, .cons (Expr.verdict_true_iff.mp verdict) values, by simp⟩
    | drop verdict _ ih =>
      obtain ⟨verdicts, values, rfl⟩ := ih
      obtain ⟨x, value, other⟩ := Expr.verdict_false_iff.mp verdict
      exact ⟨x :: verdicts, .cons value values, by simp [other]⟩

theorem selected_congr {first second : Expr}
    (same : ∀ t ∈ ts, ∀ b, first.Verdict I t b ↔ second.Verdict I t b) :
    Selected I first ts out ↔ Selected I second ts out := by
  rw [selected_iff, selected_iff]
  exact sifted_congr same

/-- A select by the conjuncts of two conditions is a select by the second and then by the first. -/
theorem selected_conjunction (lawful : I.Lawful) {first second : Expr}
    (fillsFirst : ∀ t ∈ ts, t.Fills first.occurrences)
    (fillsSecond : ∀ t ∈ ts, t.Fills second.occurrences) :
    Selected I (.conjunction (first.conjuncts ++ second.conjuncts)) ts out ↔
      ∃ mid, Selected I second ts mid ∧ Selected I first mid out := by
  simp only [selected_iff]
  rw [sifted_sifted]
  refine sifted_congr fun t member b => ?_
  have inSecond : t.Fills (Expr.occurrencesList second.conjuncts) := by
    rw [Expr.occurrencesList_conjuncts]
    exact fillsSecond t member
  have all : t.Fills (Expr.occurrencesList (first.conjuncts ++ second.conjuncts)) := by
    intro v occurs
    rw [Expr.occurrencesList_append, Expr.occurrencesList_conjuncts,
      Expr.occurrencesList_conjuncts] at occurs
    rcases List.mem_append.mp occurs with occurs | occurs
    · exact fillsFirst t member v occurs
    · exact fillsSecond t member v occurs
  rw [Expr.verdict_conjunction lawful all, Expr.verdictOfAll_append lawful inSecond]
  unfold andThen
  rw [← Expr.verdict_iff_conjuncts lawful (fillsSecond t member),
    ← Expr.verdict_iff_conjuncts lawful (fillsSecond t member),
    ← Expr.verdict_iff_conjuncts lawful (fillsFirst t member)]

/-- Conditions that are always true can be left out of a conjunction. -/
theorem selected_conjunction_filter (lawful : I.Lawful) {conditions : List Expr}
    (fills : ∀ t ∈ ts, t.Fills (Expr.occurrencesList conditions)) :
    Selected I (.conjunction (conditions.filter (!·.isTrue))) ts out ↔
      Selected I (.conjunction conditions) ts out := by
  refine selected_congr fun t member b => ?_
  have fewer : t.Fills (Expr.occurrencesList (conditions.filter (!·.isTrue))) := by
    refine (fills t member).mono fun v occurs => ?_
    rw [Expr.occurrencesList_eq] at occurs
    obtain ⟨c, kept, occurs⟩ := List.mem_flatMap.mp occurs
    exact Expr.mem_occurrencesList (List.mem_filter.mp kept).1 occurs
  rw [Expr.verdict_conjunction lawful fewer, Expr.verdict_conjunction lawful (fills t member),
    Expr.verdictOfAll_filter]

end QueryOptimizer
