import Mathlib
import QueryOptimizer.Proofs.Plan.Refresh
import QueryOptimizer.Proofs.Relational.Evaluation

/-! # Reads of valid plans

A valid plan is evaluated without reading a variable that has no value, if every union takes its
columns from their own sides. Validity alone is not enough for a union: its columns are looked up in
the variables of both inputs, but each tuple that it reads comes from one of them.
-/

namespace QueryOptimizer

open Evaluation

variable {σ : Type} {W : World σ}

/-! ## Tuples and expressions -/

namespace Tuple

variable {t : Tuple} {vs : List Var}

/-- Whether a tuple has values of these variables and of no others. -/
def Binds (t : Tuple) (vs : List Var) : Prop := ∀ v, (∃ x, t v = some x) ↔ v ∈ vs

theorem Binds.fills (binds : t.Binds vs) : t.Fills vs := fun v member => (binds v).mpr member

/-- A tuple that has values of exactly these variables. -/
def blank (vs : List Var) : Tuple := fun v => if v ∈ vs then some (.null .null) else none

theorem binds_blank (vs : List Var) : (blank vs).Binds vs := by
  intro v
  by_cases member : v ∈ vs <;> simp [blank, member]

theorem ensures_read {v : Var} (bound : ∃ x, t v = some x) :
    (t.read v : Evaluation σ Scalar).Ensures fun _ => True := by
  obtain ⟨x, value⟩ := bound
  unfold read
  rw [value]
  exact ensures_pure trivial

theorem exists_of_read {v : Var} {s s' : σ} {x : Scalar}
    (done : (t.read v : Evaluation σ Scalar).run s = .ok (x, s')) : ∃ y, t v = some y := by
  unfold read at done
  cases value : t v with
  | none => rw [value] at done; cases done
  | some y => exact ⟨y, rfl⟩

theorem ensures_copy {entries : List (Var × Var)} (fills : t.Fills (entries.map (·.2))) :
    (t.copy entries : Evaluation σ Tuple).Ensures fun u => u.Fills (entries.map (·.1)) := by
  refine (ensures_mapM fun entry member => ensures_read ?_).map fun xs results => ?_
  · exact fills _ (List.mem_map_of_mem member)
  · exact fills_extend _ (by rw [List.length_map, results.length_eq])

end Tuple

theorem combinations_fills {columns : List (List Var)} {ins : List (List Tuple)}
    (bound : List.Forall₂ (fun vs ts => ∀ t ∈ ts, t.Fills vs) columns ins) :
    ∀ t ∈ combinations (columns.zip ins), t.Fills columns.flatten := by
  induction bound with
  | nil => intro t _ v impossible; cases impossible
  | cons first _ ih =>
    intro t member
    obtain ⟨t, fromFirst, combined⟩ := List.mem_flatMap.mp member
    obtain ⟨u, fromRest, rfl⟩ := List.mem_map.mp combined
    exact (first t fromFirst).join (ih u fromRest)

namespace Expr

variable {t : Tuple} {ts : List Tuple} {e : Expr}

mutual
theorem ensures_evaluate {e : Expr} (fills : t.Fills e.occurrences) :
    (e.evaluate W t).Ensures fun _ => True := by
  cases e with
  | const value =>
    rw [evaluate]
    exact ensures_pure trivial
  | var v =>
    rw [evaluate]
    exact Tuple.ensures_read (fills v List.mem_cons_self)
  | call f args hints =>
    rw [evaluate]
    exact (ensures_evaluateAll fills).bind fun xs _ => ensures_modifyGet fun _ => trivial

theorem ensures_evaluateAll {es : List Expr} (fills : t.Fills (occurrencesList es)) :
    (evaluateAll W t es).Ensures fun xs => xs.length = es.length := by
  cases es with
  | nil =>
    rw [evaluateAll]
    exact ensures_pure rfl
  | cons e es =>
    rw [evaluateAll]
    have first : t.Fills e.occurrences := fills.mono fun v => List.mem_append_left _
    have rest : t.Fills (occurrencesList es) := fills.mono fun v => List.mem_append_right _
    exact (ensures_evaluate first).bind fun x _ => (ensures_evaluateAll rest).map fun xs length =>
      congrArg (· + 1) length
end

theorem occurrencesList_gathered (e : Expr) : occurrencesList e.gathered = e.occurrences := by
  cases e <;> simp [gathered, occurrencesList, occurrences]

theorem ensures_foldOver (fills : ∀ t ∈ ts, t.Fills e.occurrences) :
    (e.foldOver W ts).Ensures fun _ => True := by
  rw [← occurrencesList_gathered] at fills
  exact (ensures_mapM fun t member => ensures_evaluateAll (fills t member)).bind fun _ _ =>
    ensures_modifyGet fun _ => trivial

theorem ensures_selectFrom (fills : ∀ t ∈ ts, t.Fills e.occurrences) :
    (e.selectFrom W ts).Ensures fun out => ∀ t ∈ out, t ∈ ts := by
  refine (ensures_mapM fun t member => ensures_evaluate (fills t member)).map
    fun verdicts _ t member => ?_
  obtain ⟨⟨t, verdict⟩, kept, rfl⟩ := List.mem_map.mp member
  exact (List.of_mem_zip (List.mem_filter.mp kept).1).1

end Expr

/-! ## Operators -/

namespace Operator

/-- Whether there is an expression for every variable that is assigned or aggregated. -/
def Matched : Operator → Prop
  | assign vars exprs | aggregate vars exprs | runningAggregate vars exprs =>
    vars.length = exprs.length
  | _ => True

/-- Whether a union takes its columns from their own sides. -/
def Sided (columns : List (List Var)) : Operator → Prop
  | unionAll pairs => ∀ c ∈ pairs, (∀ vs ∈ columns[0]?, c.left ∈ vs) ∧ ∀ vs ∈ columns[1]?, c.right ∈ vs
  | _ => True

instance (columns : List (List Var)) (op : Operator) : Decidable (op.Sided columns) :=
  match op with
  | unionAll pairs => inferInstanceAs (Decidable (∀ c ∈ pairs,
      (∀ vs ∈ columns[0]?, c.left ∈ vs) ∧ ∀ vs ∈ columns[1]?, c.right ∈ vs))
  | emptySource | nestedSource _ | scan .. | select _ | assign .. | project _ | join .. | groupBy ..
  | aggregate .. | runningAggregate .. | distinct _ | order .. | limit .. | unnest .. | subplan _
  | exchange | replicate | write .. | insertDelete .. | sink | script .. => .isTrue trivial

variable {op : Operator} {columns inside : List (List Var)} {ins : List (List Tuple)}
  {around : NodeId → List Tuple} {nested : List Tuple → Evaluation σ (List Tuple)}

section Reading

variable (bound : List.Forall₂ (fun vs ts => ∀ t ∈ ts, t.Fills vs) columns ins)

include bound

theorem forall₂_single {t : Tuple} (member : t ∈ ins.headD []) :
    List.Forall₂ (fun vs ts => ∀ t ∈ ts, t.Fills vs) columns ([t] :: ins.tail) := by
  cases bound with
  | nil => cases member
  | cons first rest =>
    refine .cons (fun u single => ?_) rest
    rw [List.mem_singleton.mp single]
    exact first t member

theorem fills_getD {k : Nat} {t : Tuple} (member : t ∈ ins.getD k []) :
    ∃ vs, columns[k]? = some vs ∧ t.Fills vs := by
  rw [List.getD_eq_getElem?_getD] at member
  cases found : ins[k]? with
  | none => rw [found] at member; cases member
  | some ts =>
    obtain ⟨small, rfl⟩ := List.getElem?_eq_some_iff.mp found
    rw [found] at member
    have present : k < columns.length := bound.length_eq ▸ small
    exact ⟨columns[k], List.getElem?_eq_getElem present, bound.get present small t member⟩

/-- The tuples that a union takes from one of its inputs. -/
theorem ensures_evaluateSide {pairs : List UnionColumn} {side : UnionColumn → Var} {k : Nat}
    (inside : ∀ c ∈ pairs, ∀ vs ∈ columns[k]?, side c ∈ vs) :
    (evaluateSide pairs side (ins.getD k []) : Evaluation σ (List Tuple)).Ensures fun out =>
      ∀ t ∈ out, t.Fills (pairs.map (·.output)) := by
  refine ensures_mapM_mem fun t member => ?_
  obtain ⟨vs, found, fills⟩ := fills_getD bound member
  refine (Tuple.ensures_copy fun v read => ?_).mono fun u copied => ?_
  · rw [List.map_map] at read
    obtain ⟨c, isColumn, rfl⟩ := List.mem_map.mp read
    exact fills _ (inside c isColumn vs found)
  · rwa [List.map_map] at copied

theorem ensures_join {kind : JoinKind} {condition : Expr}
    (reads : ∀ v ∈ condition.occurrences, v ∈ columns.flatten) :
    ((join kind condition).evaluate W columns ins around nested).Ensures fun out =>
      ∀ t ∈ out, t.Fills columns.flatten := by
  have select : ∀ {ts : List Tuple}, (∀ t ∈ ts, t.Fills columns.flatten) →
      (condition.selectFrom W ts).Ensures fun out => ∀ t ∈ out, t.Fills columns.flatten :=
    fun fills => (Expr.ensures_selectFrom fun t member => (fills t member).mono reads).mono
      fun out kept t member => fills t (kept t member)
  cases kind with
  | inner => exact select (combinations_fills bound)
  | leftOuter =>
    -- Each tuple of the left input is joined alone, and padded if it meets no other.
    refine ensures_flatten fun t member => ?_
    have single := forall₂_single bound member
    refine (select (combinations_fills single)).bind fun block fills => ?_
    split
    · refine ensures_pure fun u isPadded => ?_
      rw [List.mem_singleton.mp isPadded]
      cases single with
      | cons first _ =>
        exact (first t List.mem_cons_self).join (Tuple.fills_extend _ (List.length_map _).ge)
    · exact ensures_pure fills

section Nested

variable (inner : ∀ ts, (∀ t ∈ ts, t.Fills columns.flatten) →
  (nested ts).Ensures fun out => ∀ t ∈ out, t.Fills inside.flatten)

include inner

theorem ensures_groupBy {keys decor : List (Var × Expr)} {plans : NestedPlans}
    (reads : ∀ v ∈ Expr.occurrencesList ((keys ++ decor).map (·.2)), v ∈ columns.flatten) :
    ((groupBy keys decor plans).evaluate W columns ins around nested).Ensures fun out =>
      ∀ t ∈ out, t.Fills (appendNew inside.flatten ((keys ++ decor).map (·.1))) := by
  have filled := combinations_fills bound
  refine (ensures_mapM fun t member => Expr.ensures_evaluateAll ((filled t member).mono reads)).bind
    fun rows lengths => ensures_flatten fun group isGroup => ?_
  refine (inner _ fun t member => ?_).map fun out fills t member => ?_
  · obtain ⟨entry, inGroup, rfl⟩ := List.mem_map.mp member
    exact filled _ (List.of_mem_zip (mem_of_mem_group isGroup inGroup)).1
  · obtain ⟨t, inside, rfl⟩ := List.mem_map.mp member
    obtain ⟨entry, isHead, inGroup, _⟩ := exists_head_of_mem_groups isGroup
    have length := List.forall₂_zip lengths (mem_of_mem_group isGroup inGroup)
    refine (fills t inside).extend ?_
    rw [isHead]
    rw [List.length_map] at length ⊢
    exact length.ge

theorem ensures_subplan {plans : NestedPlans} :
    ((subplan plans).evaluate W columns ins around nested).Ensures fun out =>
      ∀ t ∈ out, t.Fills (appendNew columns.flatten inside.flatten) := by
  have filled := combinations_fills bound
  refine ensures_flatten fun t member => ?_
  refine (inner [t] fun u single => ?_).map fun out fills u made => ?_
  · rw [List.mem_singleton.mp single]
    exact filled t member
  · obtain ⟨u, inside, rfl⟩ := List.mem_map.mp made
    exact ((filled t member).join (fills u inside)).mono fun v new =>
      List.mem_append.mpr (mem_appendNew.mp new)

/-- An operator that reads what its inputs have is evaluated without a fault, and its tuples have
    values of its schema. -/
theorem ensures_evaluate (other : ∀ owner, op ≠ nestedSource owner) (matched : op.Matched)
    (sided : op.Sided columns) (reads : ∀ v ∈ op.used, v ∈ columns.flatten) :
    (op.evaluate W columns ins around nested).Ensures fun out =>
      ∀ t ∈ out, t.Fills (op.schema columns inside) := by
  have filled := combinations_fills bound
  have passed : ∀ t ∈ combinations (columns.zip ins), t.Fills (columns.headD []) := by
    intro t member
    refine (filled t member).mono fun v => ?_
    cases columns with
    | nil => exact id
    | cons vs rest => exact List.mem_append_left _
  have readAll : ∀ {es : List Expr}, (∀ v ∈ Expr.usedVarsOf es, v ∈ columns.flatten) →
      ∀ v ∈ Expr.occurrencesList es, v ∈ columns.flatten :=
    fun inScope v occurs => inScope v (mem_distinct.mpr occurs)
  have read : ∀ {es : List Expr}, (∀ v ∈ Expr.usedVarsOf es, v ∈ columns.flatten) →
      ∀ e ∈ es, ∀ v ∈ e.occurrences, v ∈ columns.flatten := by
    intro es inScope e member v occurs
    refine readAll inScope v ?_
    rw [Expr.occurrencesList_eq]
    exact List.mem_flatMap.mpr ⟨e, member, occurs⟩
  cases op with
  | nestedSource owner => exact absurd rfl (other owner)
  | emptySource =>
    refine ensures_pure fun t _ v impossible => ?_
    cases impossible
  | scan source vars =>
    refine (ensures_modifyGet fun _ => trivial).map fun rows (_ : True) t member => ?_
    obtain ⟨t, combined, extended⟩ := List.mem_flatMap.mp member
    obtain ⟨row, _, rfl⟩ := List.mem_map.mp extended
    exact (filled t combined).extend row.2.ge
  | select condition =>
    exact (Expr.ensures_selectFrom fun t member => (filled t member).mono
      (read reads condition List.mem_cons_self)).mono fun out kept t member => passed t (kept t member)
  | assign vars exprs =>
    refine ensures_mapM_mem fun t member => ?_
    exact (Expr.ensures_evaluateAll ((filled t member).mono (readAll reads))).map fun xs length =>
      (filled t member).extend (length ▸ matched.le)
  | project vars =>
    refine ensures_mapM_mem fun t member => (Tuple.ensures_copy ?_).mono fun u fills => ?_
    · rw [List.map_map]
      exact (filled t member).mono fun v used => reads v (List.map_id vars ▸ used)
    · rw [List.map_map] at fills
      exact List.map_id vars ▸ fills
  | join kind condition => exact ensures_join bound (read reads condition List.mem_cons_self)
  | groupBy keys decor plans => exact ensures_groupBy bound inner (readAll reads)
  | aggregate vars exprs =>
    refine (ensures_mapM fun e member => Expr.ensures_foldOver fun t combined =>
      (filled t combined).mono (read reads e member)).map fun xs results t member => ?_
    rw [List.mem_singleton.mp member]
    exact Tuple.fills_extend _ (results.length_eq ▸ matched.le)
  | runningAggregate vars exprs =>
    refine ensures_mapM_mem fun entry member => ?_
    obtain ⟨combined, sofar⟩ := List.of_mem_zip member
    have earlier : ∀ t ∈ entry.2, t.Fills columns.flatten := fun t before =>
      filled t (((List.mem_inits _ _).mp (List.mem_of_mem_tail sofar)).subset before)
    refine (ensures_mapM fun e isExpr => Expr.ensures_foldOver fun t before =>
      (earlier t before).mono (read reads e isExpr)).map fun xs results => ?_
    exact (filled _ combined).extend (results.length_eq ▸ matched.le)
  | distinct vars =>
    refine (ensures_mapM_mem fun t member => (ensures_mapM fun v used => Tuple.ensures_read
      (filled t member v (reads v used))).mono fun row results => results.length_eq).map
      fun rows lengths t member => ?_
    obtain ⟨row, isRow, rfl⟩ := List.mem_map.mp member
    exact Tuple.fills_extend _ (lengths row (List.mem_dedup.mp isRow)).le
  | order keys top =>
    refine (ensures_mapM fun t member => Expr.ensures_evaluateAll
      ((filled t member).mono (readAll reads))).map fun rows _ t member => ?_
    obtain ⟨entry, sorted, rfl⟩ := List.mem_map.mp (List.mem_of_mem_take member)
    exact passed _ (List.of_mem_zip (List.mem_mergeSort.mp sorted)).1
  | limit count offset =>
    exact ensures_pure fun t member => passed t (List.mem_of_mem_drop (List.mem_of_mem_take member))
  | unnest v e position =>
    refine ensures_flatten fun t member => ?_
    refine (Expr.ensures_evaluate ((filled t member).mono
      (read reads e List.mem_cons_self))).map fun x _ u made => ?_
    obtain ⟨item, _, rfl⟩ := List.mem_map.mp made
    refine (filled t member).extend ?_
    cases position <;> simp
  | subplan plans => exact ensures_subplan bound inner
  | exchange | replicate | sink => exact ensures_pure passed
  | unionAll pairs =>
    refine (ensures_evaluateSide bound fun c member => (sided c member).1).bind fun left fillsLeft => ?_
    refine (ensures_evaluateSide bound fun c member => (sided c member).2).map fun right fillsRight => ?_
    exact List.forall_mem_append.mpr ⟨fillsLeft, fillsRight⟩
  | write target exprs | insertDelete change dataset payload exprs =>
    refine (ensures_mapM fun t member => Expr.ensures_evaluateAll
      ((filled t member).mono (readAll reads))).bind fun rows _ => ?_
    exact (ensures_modifyGet fun _ => trivial).bind fun _ (_ : True) => ensures_pure passed
  | script command inputs outputs =>
    refine (ensures_mapM fun t member => ensures_mapM fun v used => Tuple.ensures_read
      (filled t member v (reads v used))).bind fun rows _ => ?_
    refine (ensures_modifyGet fun _ => trivial).map fun made (_ : True) t member => ?_
    obtain ⟨row, _, rfl⟩ := List.mem_map.mp member
    exact Tuple.fills_extend _ row.2.ge

end Nested

end Reading

/-- A side from which a union reads without a fault has the columns that are read. -/
theorem mem_of_evaluateSide {pairs : List UnionColumn} {side : UnionColumn → Var} {k : Nat} {vs : List Var}
    {s : σ} {result : List Tuple × σ} (found : columns[k]? = some vs)
    (done : (evaluateSide pairs side ((columns.map fun vs => [Tuple.blank vs]).getD k [])).run s =
      .ok result) :
    ∀ c ∈ pairs, side c ∈ vs := by
  intro c member
  rw [List.getD_eq_getElem?_getD, List.getElem?_map, found] at done
  obtain ⟨_, _, _, copied⟩ := exists_run_of_mapM done List.mem_cons_self
  obtain ⟨⟨xs, s'⟩, loop, _⟩ := bind_ok_iff.mp copied
  obtain ⟨_, _, _, read⟩ := exists_run_of_mapM loop (List.mem_map_of_mem member)
  exact (Tuple.binds_blank vs _).mp (Tuple.exists_of_read read)

theorem sided_of_evaluate {s : σ} {result : List Tuple × σ}
    (done : (op.evaluate W columns (columns.map fun vs => [Tuple.blank vs]) around nested).run s =
      .ok result) : op.Sided columns := by
  cases op with
  | unionAll pairs =>
    obtain ⟨_, left, done⟩ := bind_ok_iff.mp done
    obtain ⟨_, right, _⟩ := bind_ok_iff.mp done
    exact fun c member => ⟨fun vs found => mem_of_evaluateSide found left c member,
      fun vs found => mem_of_evaluateSide found right c member⟩
  | _ => trivial

end Operator

/-! ## Plans -/

namespace Plan

variable {plan : Plan} {rank : NodeId → Nat} {frames : Frames} {n : NodeId} {ins : List (List Tuple)}

section Sound

variable (scope : plan.InScope) (current : plan.SchemasCurrent)
  (matched : ∀ n, plan.Reaches n → (plan.operator n).Matched)
  (sided : ∀ n, plan.Reaches n → (plan.operator n).Sided ((plan.inputs n).map plan.columns))

include scope current matched sided

/-- One node is evaluated without a fault where its nested plans are. -/
theorem ensures_evaluateNode {run : Frames → NodeId → Evaluation σ (List Tuple)}
    (reached : plan.Reaches n) (framed : plan.FramesFilled frames)
    (bound : List.Forall₂ (fun c ts => ∀ t ∈ ts, t.Fills (plan.columns c)) (plan.inputs n) ins)
    (below : ∀ root ∈ plan.nestedRoots n, ∀ frames, plan.FramesFilled frames →
      (run frames root).Ensures fun out => ∀ t ∈ out, t.Fills (plan.columns root)) :
    (plan.evaluateNode W run frames n ins).Ensures fun out => ∀ t ∈ out, t.Fills (plan.columns n) := by
  unfold evaluateNode
  by_cases isSource : ∃ owner, plan.operator n = .nestedSource owner
  · obtain ⟨owner, operator⟩ := isSource
    obtain ⟨input, found, columns⟩ := current.columns_nestedSource reached operator
    rw [operator, columns, ← inputColumns_of_getElem? found]
    refine ensures_pure fun t member => ?_
    change t ∈ (frames owner).getD [] at member
    cases frame : frames owner with
    | none => rw [frame] at member; cases member
    | some ts => exact framed owner ts frame t (by rwa [frame] at member)
  · have other : ∀ owner, plan.operator n ≠ .nestedSource owner := not_exists.mp isSource
    rw [current.columns_eq reached other]
    refine Operator.ensures_evaluate (List.forall₂_map_left_iff.mpr bound) (fun ts fills => ?_) other
      (matched n reached) (sided n reached) fun v used => ?_
    · have entered : plan.FramesFilled (frames.enter n ts) := framed.enter fun t member =>
        (fills t member).mono fun v first => by
          cases inputs : plan.inputs n with
          | nil => simp [inputColumns, inputs] at first
          | cons c rest =>
            rw [inputColumns, inputs] at first
            exact List.mem_append_left _ first
      refine (ensures_mapM fun root isRoot => below root isRoot _ entered).map fun outs results => ?_
      exact combinations_fills (List.forall₂_map_left_iff.mpr results)
    · -- Validity leaves subplans out, but these read nothing themselves.
      by_cases isSubplan : ∃ nested, plan.operator n = .subplan nested
      · obtain ⟨nested, operator⟩ := isSubplan
        rw [operator] at used
        cases used
      · obtain ⟨c, isInput, inside⟩ := scope n reached (not_exists.mp isSubplan) v used
        exact List.mem_flatten.mpr ⟨_, List.mem_map_of_mem isInput, inside⟩

/-- A node and all below it are evaluated without a fault. -/
theorem ensures_evaluateWithin (falls : plan.RankedBy rank) {depth : Nat} (reached : plan.Reaches n)
    (deep : rank n < depth) (framed : plan.FramesFilled frames) :
    (plan.evaluateWithin W depth frames n).Ensures fun out => ∀ t ∈ out, t.Fills (plan.columns n) := by
  induction depth generalizing n frames with
  | zero => cases deep
  | succ depth ih =>
    have lower : ∀ c ∈ plan.children n, rank c < depth := fun c isChild =>
      Nat.lt_of_lt_of_le (falls n reached c (mem_sources_iff.mpr (.inl isChild)))
        (Nat.le_of_lt_succ deep)
    refine (ensures_mapM fun c isInput => ih (reached.input isInput)
      (lower c (List.mem_append_left _ isInput)) framed).bind fun ins bound => ?_
    exact ensures_evaluateNode scope current matched sided reached framed bound
      fun root isRoot frames framed => ih (reached.nestedRoot isRoot)
        (lower root (List.mem_append_right _ isRoot)) framed

end Sound

/-- A valid plan reads no variable without a value, and its tuples have values of all columns, exactly
    if its unions take their columns from their own sides. -/
theorem evaluates_iff_sided [Inhabited σ] (W : World σ) (valid : plan.validate false = .ok ())
    (current : plan.SchemasCurrent) (falls : plan.RankedBy rank)
    (matched : ∀ n, plan.Reaches n → (plan.operator n).Matched) :
    (∀ n, plan.Reaches n → ∀ depth ≥ rank n, ∀ frames, plan.FramesFilled frames →
      ∀ ins, List.Forall₂ (fun c ts => ∀ t ∈ ts, t.Binds (plan.columns c)) (plan.inputs n) ins →
      ∀ s, ∃ out s', (plan.evaluateNode W (plan.evaluateWithin W depth) frames n ins).run s =
        .ok (out, s') ∧ ∀ t ∈ out, t.Fills (plan.columns n)) ↔
    ∀ n, plan.Reaches n → (plan.operator n).Sided ((plan.inputs n).map plan.columns) := by
  constructor
  · -- On tuples that bind nothing but the columns, a union that ends has read its own sides.
    intro evaluates n reached
    have binds : List.Forall₂ (fun c ts => ∀ t ∈ ts, t.Binds (plan.columns c)) (plan.inputs n)
        (((plan.inputs n).map plan.columns).map fun vs => [Tuple.blank vs]) := by
      rw [List.map_map, List.forall₂_map_right_iff, List.forall₂_same]
      rintro c _ t single
      rw [List.mem_singleton.mp single]
      exact Tuple.binds_blank _
    have framed : plan.FramesFilled .outer := by
      intro owner ts impossible
      cases impossible
    obtain ⟨out, s', done, _⟩ := evaluates n reached (rank n) le_rfl .outer framed _ binds default
    exact Operator.sided_of_evaluate done
  · intro sided n reached depth deep frames framed ins binds
    refine ensures_evaluateNode (inScope_of_validate valid) current matched sided reached framed
      (binds.imp fun c ts each t member => (each t member).fills) fun root isRoot frames framed => ?_
    refine ensures_evaluateWithin (inScope_of_validate valid) current matched sided falls
      (reached.nestedRoot isRoot) ?_ framed
    exact Nat.lt_of_lt_of_le (falls n reached root
      (mem_sources_iff.mpr (.inl (List.mem_append_right _ isRoot)))) deep

/-- Groups of a union, with the number of tuples in each. -/
def groupedUnion (left right : Var) : Plan where
  nodes := [
    some { Node.above .emptySource [] with schema := some [] },
    some { Node.above (.scan "A" [1]) [0] with schema := some [1] },
    some { Node.above (.scan "B" [2]) [0] with schema := some [2] },
    some { Node.above (.unionAll [⟨left, right, 3⟩]) [1, 2] with schema := some [3] },
    some { Node.above (.nestedSource 6) [] with schema := some [3] },
    some { Node.above (.aggregate [5] [.call .count [.var 3] []]) [4] with schema := some [5] },
    some { Node.above (.groupBy [(4, .var 3)] [] [[5]]) [3] with schema := some [5, 4] }]
  root := 6

section GroupedUnion

variable {left right : Var}

theorem mem_of_reaches_groupedUnion (reached : (groupedUnion left right).Reaches n) :
    n ∈ [6, 3, 1, 0, 2, 5, 4] := mem_reachable reached

theorem groupedUnion_current : (groupedUnion left right).SchemasCurrent := by
  intro n reached
  have member := mem_of_reaches_groupedUnion reached
  fin_cases member <;> exact ⟨_, rfl, rfl⟩

theorem groupedUnion_ranked : (groupedUnion left right).RankedBy id := by
  intro n reached
  have member := mem_of_reaches_groupedUnion reached
  fin_cases member <;> exact of_decide_eq_true rfl

theorem groupedUnion_matched (reached : (groupedUnion left right).Reaches n) :
    ((groupedUnion left right).operator n).Matched := by
  have member := mem_of_reaches_groupedUnion reached
  fin_cases member <;> trivial

end GroupedUnion

/-- A world that counts the calls. -/
def countingWorld : World Nat where
  call _ _ calls := (.integer .int64 calls, calls + 1)
  fold _ rows calls := (.integer .int64 rows.length, calls)
  items value := [value]
  ascends _ _ := true
  scan _ width calls := ([⟨List.replicate width (.null .null), List.length_replicate⟩], calls)
  script _ _ width calls := ([⟨List.replicate width (.null .null), List.length_replicate⟩], calls)
  store _ _ calls := calls
  change _ _ _ calls := calls

/-- Each group is counted, whatever the answers of the world were before. -/
theorem evaluates_iff_sided_groupedUnion : (groupedUnion 1 2).validate false = .ok () ∧
    ∀ s, ∃ out s', ((groupedUnion 1 2).evaluateNode countingWorld
      ((groupedUnion 1 2).evaluateWithin countingWorld 6) .outer 6
      [[Tuple.blank [3], Tuple.blank [3]]]).run s = .ok (out, s') ∧ ∀ t ∈ out, t.Fills [5, 4] := by
  have valid : (groupedUnion 1 2).validate false = .ok () := by decide +kernel
  have sided : ∀ n, (groupedUnion 1 2).Reaches n → ((groupedUnion 1 2).operator n).Sided
      (((groupedUnion 1 2).inputs n).map (groupedUnion 1 2).columns) := by
    intro n reached
    have member := mem_of_reaches_groupedUnion reached
    fin_cases member <;> decide
  refine ⟨valid, (evaluates_iff_sided countingWorld valid groupedUnion_current groupedUnion_ranked
    fun n => groupedUnion_matched).mpr sided 6 .refl 6 le_rfl .outer ?_ _ ?_⟩
  · intro owner ts impossible
    cases impossible
  · refine .cons (fun t member => ?_) .nil
    rcases List.mem_pair.mp member with rfl | rfl <;> exact Tuple.binds_blank _

/-- A union whose columns are crossed is valid, but reads a variable of one input in a tuple of the
    other. -/
theorem crossed_union_reads_unbound : (groupedUnion 2 1).validate false = .ok () ∧
    (groupedUnion 2 1).SchemasCurrent ∧ (groupedUnion 2 1).RankedBy id ∧
    (∀ n, (groupedUnion 2 1).Reaches n → ((groupedUnion 2 1).operator n).Matched) ∧
    (groupedUnion 2 1).Reaches 3 ∧
    List.Forall₂ (fun c ts => ∀ t ∈ ts, t.Binds ((groupedUnion 2 1).columns c))
      ((groupedUnion 2 1).inputs 3) [[Tuple.blank [1]], [Tuple.blank [2]]] ∧
    ((groupedUnion 2 1).evaluateNode countingWorld ((groupedUnion 2 1).evaluateWithin countingWorld 6)
      .outer 3 [[Tuple.blank [1]], [Tuple.blank [2]]]).run 0 = .error (.unbound 2) := by
  refine ⟨by decide +kernel, groupedUnion_current, groupedUnion_ranked, fun n => groupedUnion_matched,
    reaches_of_mem_reachable (by decide), ?_, rfl⟩
  refine .cons (fun t member => ?_) (.cons (fun t member => ?_) .nil)
  · rw [List.mem_singleton.mp member]
    exact Tuple.binds_blank _
  · rw [List.mem_singleton.mp member]
    exact Tuple.binds_blank _

end Plan

end QueryOptimizer
