import Mathlib
import QueryOptimizer.Proofs.Relational.Simplified

/-! # Facts of each operator

From facts that are true of the tuples of its inputs, each operator gets facts that are true of its
own tuples, in every run of the plan. A subplan is the one operator whose nested plans have to be
deterministic for this: its input is said to determine what they yield.
-/

namespace QueryOptimizer

/-- Whether rows of a data source that agree on its primary key are equal. -/
def Interpretation.RespectsKeys (I : Interpretation) (catalog : Catalog) : Prop :=
  ∀ name source, catalog.find? name = some source → source.key ≠ [] →
    ∀ row ∈ I.rows name, ∀ row' ∈ I.rows name,
      (∀ column ∈ source.key, ∀ i, source.columns.findIdx? (fun c => c.1 = column) = some i →
        row[i]? = row'[i]?) → row = row'

theorem findIdx?_of_find?_zip {columns : List (String × DataType)} {vs : List Var}
    {column : String} {entry : (String × DataType) × Var} (arity : vs.length = columns.length)
    (found : (columns.zip vs).find? (fun entry => entry.1.1 = column) = some entry) :
    ∃ i, columns.findIdx? (fun c => c.1 = column) = some i ∧ vs[i]? = some entry.2 := by
  induction columns generalizing vs with
  | nil => cases found
  | cons c columns ih =>
    cases vs with
    | nil => cases arity
    | cons v vs =>
      rw [List.zip_cons_cons, List.find?_cons] at found
      rw [List.findIdx?_cons]
      by_cases here : c.1 = column
      · rw [decide_eq_true here] at found ⊢
        cases found
        exact ⟨0, rfl, rfl⟩
      · rw [decide_eq_false here] at found ⊢
        obtain ⟨i, position, atVar⟩ := ih (Nat.succ.inj arity) found
        exact ⟨i + 1, by simp [position], atVar⟩

/-- A column name is bound to the variable at the position of the column. -/
theorem Source.columnVar_spec {source : Source} {vs : List Var} {column : String} {v : Var}
    (arity : vs.length = source.columns.length) (bound : source.columnVar vs column = .ok v) :
    ∃ i, source.columns.findIdx? (fun c => c.1 = column) = some i ∧ vs[i]? = some v := by
  unfold columnVar at bound
  split at bound
  · rename_i entry found
    cases bound
    exact findIdx?_of_find?_zip arity found
  · cases bound

/-- The one dependency of a data source with a key leads from the key to all other columns. -/
theorem Catalog.dependencies_spec {catalog : Catalog} {name : String} {vs : List Var}
    {dependencies : List Dependency} (derived : catalog.dependencies name vs = .ok dependencies) :
    dependencies = [] ∨ ∃ source keys, catalog.find? name = some source ∧ keys ≠ [] ∧
      vs.length = source.columns.length ∧ source.key.mapM (source.columnVar vs) = .ok keys ∧
      dependencies = [.ofLists keys (vs.filter fun v => decide (v ∉ keys))] := by
  obtain ⟨source, found, derived⟩ := bind_ok_iff.mp derived
  obtain ⟨keys, bound, derived⟩ := bind_ok_iff.mp derived
  obtain ⟨_, checked, bound⟩ := bind_ok_iff.mp bound
  have isSource : catalog.find? name = some source := by
    unfold Catalog.find at found
    split at found
    · cases found; assumption
    · cases found
  have arity : vs.length = source.columns.length := by
    unfold Source.checkArity at checked
    split at checked
    · assumption
    · cases checked
  cases keys with
  | nil => exact .inl (pure_ok_iff.mp derived).symm
  | cons key keys =>
    cases others : vs.filter fun v => decide (v ∉ key :: keys) with
    | nil => rw [others] at derived; exact .inl (pure_ok_iff.mp derived).symm
    | cons v rest =>
      rw [others] at derived
      exact .inr ⟨source, key :: keys, isSource, List.cons_ne_nil _ _, arity, bound,
        by rw [others]; exact (pure_ok_iff.mp derived).symm⟩

/-- What the derivation of facts relies on. -/
structure Plan.Relational (plan : Plan) (I : Interpretation) (catalog : Catalog) : Prop where
  /-- The schemas are computed. -/
  current : plan.SchemasCurrent
  owned : plan.OwnersReachable
  /-- An operator lists a variable that it produces once, and none of its inputs has it. -/
  once : ∀ id, plan.Reaches id → (plan.operator id).produced.Nodup
  fresh : ∀ id, plan.Reaches id → ∀ v ∈ (plan.operator id).produced,
    ∀ input ∈ plan.inputs id, v ∉ plan.columns input
  /-- The sides of a join have no variable in common. -/
  apart : ∀ id kind condition, plan.Reaches id → plan.operator id = .join kind condition →
    ∀ v ∈ plan.inputColumns id 0, v ∉ plan.inputColumns id 1
  inner : ∀ id condition, plan.Reaches id → plan.operator id ≠ .join .leftOuter condition
  keyed : I.RespectsKeys catalog
  /-- The nested plans of subplans are deterministic. -/
  steady : ∀ id nested, plan.Reaches id → plan.operator id = .subplan nested →
    ∀ root ∈ plan.nestedRoots id, ∀ n, plan.Below root n → (plan.operator n).Steady

namespace Plan

variable {plan : Plan} {I : Interpretation} {catalog : Catalog} {id input : NodeId} {op : Operator}
  {facts : Facts} {frames : Frames} {ts : List Tuple}

theorem Yields.emits (run : plan.Yields I frames id ts) (operator : plan.operator id = op)
    (plain : op.IsPlain) :
    ∃ ins, (∀ k input, (plan.inputs id)[k]? = some input → plan.Yields I frames input (ins k)) ∧
      (∀ k, (plan.inputs id)[k]? = none → ins k = []) ∧
      op.Emits I (plan.inputColumns id) ins ts := by
  subst operator
  cases run with
  | nestedSource operator => rw [operator] at plain; exact plain.elim
  | groupBy operator => rw [operator] at plain; exact plain.elim
  | subplan operator => rw [operator] at plain; exact plain.elim
  | plain inputs missing emits => exact ⟨_, inputs, missing, emits⟩

/-- A subplan adds to each tuple of its input. -/
theorem Yields.of_subplan {nested : NestedPlans} (run : plan.Yields I frames id ts)
    (operator : plan.operator id = .subplan nested) (source : (plan.inputs id)[0]? = some input) :
    ∃ us, ∃ inner : Nat → NodeId → Tuple, plan.Yields I frames input us ∧
      (∀ i t, us[i]? = some t → ∀ root ∈ plan.nestedRoots id,
        plan.Yields I (frames.enter id [t]) root [inner i root]) ∧
      ts = us.mapIdx fun i t =>
        Tuple.join (plan.columns input) t (plan.combine (inner i) (plan.nestedRoots id)) := by
  cases run with
  | nestedSource operator' => cases operator.symm.trans operator'
  | groupBy operator' => cases operator.symm.trans operator'
  | plain _ _ emits => rw [operator] at emits; exact emits.elim
  | @subplan _ _ _ _ us inner _ source' tuples yielded =>
    cases source.symm.trans source'
    exact ⟨us, inner, tuples, yielded, rfl⟩

theorem SchemasCurrent.columns_plain (current : plan.SchemasCurrent) (reached : plan.Reaches id)
    (operator : plan.operator id = op) (plain : op.IsPlain) :
    plan.columns id = op.schema ((plan.inputs id).map plan.columns) [] := by
  subst operator
  rw [current.columns_eq reached plain.simple.2, show plan.nestedRoots id = [] from plain.simple.1]
  rfl

/-! ## Rules for facts of one node -/

theorem satisfies_empty : plan.Satisfies I id .empty :=
  fun _ _ _ _ => ⟨.none, fun _ _ => .empty _⟩

/-- Facts about an input hold if every tuple has the values of a tuple of the input. -/
theorem Satisfies.carry (satisfied : plan.Satisfies I input facts)
    (origin : ∀ frames ts, plan.Yields I frames id ts → ∃ us, plan.Yields I frames input us ∧
      ∀ o ∈ ts, ∃ t ∈ us, ∀ v ∈ plan.columns input, o v = t v)
    (more : ∀ v ∈ plan.columns input, v ∈ plan.columns id) : plan.Satisfies I id facts := by
  intro frames ts invoked run
  obtain ⟨us, tuples, each⟩ := origin frames ts run
  obtain ⟨hold, within⟩ := satisfied frames us invoked tuples
  constructor
  · refine hold.transfer fun o member => ?_
    obtain ⟨t, ht, same⟩ := each o member
    exact ⟨t, ht, fun v mention => same v ((within t ht).mem mention)⟩
  · intro o member
    obtain ⟨t, ht, _⟩ := each o member
    exact (within t ht).mono more

theorem Satisfies.assume (satisfied : plan.Satisfies I id facts) (current : plan.SchemasCurrent)
    (reached : plan.Reaches id) {condition : Expr}
    (holds : ∀ frames ts, plan.Yields I frames id ts →
      ∀ t ∈ ts, condition.Evaluates I t (.boolean true)) :
    plan.Satisfies I id (facts.assume condition) := by
  intro frames ts invoked run
  obtain ⟨hold, within⟩ := satisfied frames ts invoked run
  refine ⟨hold.assume (holds frames ts run), fun t member => ?_⟩
  refine (within t member).assume fun v occurs => ?_
  obtain ⟨x, value⟩ := (holds frames ts run t member).defined v occurs
  by_contra absent
  rw [run.within current reached (invoked.framesWithin current) t member v absent] at value
  cases value

theorem Satisfies.assign (satisfied : plan.Satisfies I id facts) (current : plan.SchemasCurrent)
    (reached : plan.Reaches id) {v : Var} {e : Expr}
    (value : ∀ frames ts, plan.Invocation I frames → plan.Yields I frames id ts →
      ∀ t ∈ ts, ∃ x, e.Evaluates I t x ∧ t v = some x) :
    plan.Satisfies I id (facts.assign v e) := by
  intro frames ts invoked run
  obtain ⟨hold, within⟩ := satisfied frames ts invoked run
  refine ⟨hold.assign (value frames ts invoked run), fun t member => ?_⟩
  obtain ⟨x, evaluates, assigned⟩ := value frames ts invoked run t member
  have listed : ∀ w y, t w = some y → w ∈ plan.columns id := by
    intro w y hasValue
    by_contra absent
    rw [run.within current reached (invoked.framesWithin current) t member w absent] at hasValue
    cases hasValue
  refine (within t member).assign (listed v x assigned) fun w occurs => ?_
  obtain ⟨y, hasValue⟩ := evaluates.defined w occurs
  exact listed w y hasValue

/-- What tells tuples apart determines everything. -/
theorem Satisfies.determining (satisfied : plan.Satisfies I id facts) {head tail : List Var}
    (isKey : plan.IsKey I id head) (headListed : ∀ v ∈ head, v ∈ plan.columns id)
    (tailListed : ∀ v ∈ tail, v ∈ plan.columns id) :
    plan.Satisfies I id (Session.determining facts head tail) := by
  unfold Session.determining
  split
  · exact satisfied
  · intro frames ts invoked run
    obtain ⟨hold, within⟩ := satisfied frames ts invoked run
    refine ⟨hold.addDependency ?_, fun t member => (within t member).addDependency ?_⟩
    · intro t ht u hu agree v _
      rw [isKey frames ts invoked run t ht u hu fun w inHead => agree w (VarSet.mem_ofList.mpr inHead)]
    · intro v mention
      rcases Facts.mentions_ofLists mention with inHead | inTail
      · exact headListed v inHead
      · exact tailListed v inTail

/-! ## Columns -/

namespace Relational

variable (relational : plan.Relational I catalog) (reached : plan.Reaches id)
  (operator : plan.operator id = op) (source : (plan.inputs id)[0]? = some input)
  {nested : NestedPlans} {vars : List Var}

include relational reached operator source in
theorem columns_of_all (all : op.propagation = .all) : plan.columns id = plan.columns input := by
  obtain ⟨rest, shape⟩ := List.head?_eq_some_iff.mp (List.head?_eq_getElem?.trans source)
  have other : ∀ owner, plan.operator id ≠ .nestedSource owner := by
    intro owner isSource
    rw [operator.symm.trans isSource] at all
    cases all
  rw [relational.current.columns_eq reached other, operator, shape]
  cases op <;> first | rfl | cases all

include relational reached operator in
theorem mem_columns_of_addNew (addNew : op.propagation = .addNew) {v : Var} :
    v ∈ plan.columns id ↔ v ∈ ((plan.inputs id).map plan.columns).flatten ∨ v ∈ op.produced := by
  have other : ∀ owner, plan.operator id ≠ .nestedSource owner := by
    intro owner isSource
    rw [operator.symm.trans isSource] at addNew
    cases addNew
  rw [relational.current.columns_eq reached other, operator, ← mem_appendNew]
  cases op <;> first | rfl | cases addNew

include source in
theorem mem_flatten_columns {v : Var} (member : v ∈ plan.columns input) :
    v ∈ ((plan.inputs id).map plan.columns).flatten :=
  List.mem_flatten.mpr ⟨_, List.mem_map_of_mem (List.mem_of_getElem? source), member⟩

include relational reached operator source in
/-- A tuple that is extended by produced variables keeps the values of the input. -/
theorem extend_of_input {v : Var} (member : v ∈ plan.columns input) (t : Tuple)
    (row : List Scalar) : t.extend op.produced row v = t v := by
  refine Tuple.extend_of_not_mem fun produced => ?_
  rw [← operator] at produced
  exact relational.fresh id reached v produced input (List.mem_of_getElem? source) member

/-! ## One rule for each operator -/

include relational reached operator source in
/-- Operators that pass tuples of their input through. -/
theorem satisfies_passed (satisfied : plan.Satisfies I input facts) (plain : op.IsPlain)
    (all : op.propagation = .all)
    (passed : ∀ columns ins out, op.Emits I columns ins out → ∀ t ∈ out, t ∈ ins 0) :
    plan.Satisfies I id facts := by
  refine satisfied.carry (fun frames ts run => ?_) fun v member => ?_
  · obtain ⟨ins, inputs, _, emits⟩ := run.emits operator plain
    exact ⟨ins 0, inputs 0 input source, fun o member =>
      ⟨o, passed _ _ _ emits o member, fun _ _ => rfl⟩⟩
  · rw [relational.columns_of_all reached operator source all]
    exact member

include relational reached operator source in
/-- Operators that extend the tuples of their input. -/
theorem satisfies_extended (satisfied : plan.Satisfies I input facts) (plain : op.IsPlain)
    (addNew : op.propagation = .addNew)
    (extended : ∀ columns ins out, op.Emits I columns ins out →
      ∀ o ∈ out, ∃ t ∈ ins 0, ∃ row, o = t.extend op.produced row) :
    plan.Satisfies I id facts := by
  refine satisfied.carry (fun frames ts run => ?_) fun v member => ?_
  · obtain ⟨ins, inputs, _, emits⟩ := run.emits operator plain
    refine ⟨ins 0, inputs 0 input source, fun o member => ?_⟩
    obtain ⟨t, ht, row, rfl⟩ := extended _ _ _ emits o member
    exact ⟨t, ht, fun v listed => relational.extend_of_input reached operator source listed t row⟩
  · exact (relational.mem_columns_of_addNew reached operator addNew).mpr
      (.inl (mem_flatten_columns source member))

include relational reached source in
theorem satisfies_select {condition : Expr} (operator : plan.operator id = .select condition)
    (satisfied : plan.Satisfies I input facts) : plan.Satisfies I id (facts.assume condition) := by
  have passed := relational.satisfies_passed reached operator source satisfied trivial rfl
    fun _ _ _ emits t member => (Selected.sound emits member).1
  refine passed.assume relational.current reached fun frames ts run t member => ?_
  obtain ⟨ins, _, _, emits⟩ := run.emits operator trivial
  exact (Selected.sound emits member).2

include relational reached source in
theorem satisfies_assign {exprs : List Expr} (operator : plan.operator id = .assign vars exprs)
    (satisfied : plan.Satisfies I input facts) :
    plan.Satisfies I id ((vars.zip exprs).foldl (fun facts a => facts.assign a.1 a.2) facts) := by
  have extended := relational.satisfies_extended reached operator source satisfied trivial rfl
    fun columns ins out emits o member => by
      obtain ⟨t, fromInput, row, _, rfl⟩ := emits.makes member
      exact ⟨t, fromInput, row, rfl⟩
  refine foldl_keeps (fun facts => plan.Satisfies I id facts) (fun entry listed facts satisfied => ?_)
    extended
  refine satisfied.assign relational.current reached fun frames ts invoked run o member => ?_
  obtain ⟨ins, inputs, _, emits⟩ := run.emits operator trivial
  obtain ⟨t, fromInput, row, values, rfl⟩ := emits.makes member
  have within := (inputs 0 input source).within relational.current
    (reached.input (List.mem_of_getElem? source)) (invoked.framesWithin relational.current) t fromInput
  obtain ⟨j, position⟩ := List.mem_iff_getElem?.mp listed
  obtain ⟨atVar, atExpr⟩ := List.getElem?_zip_eq_some.mp position
  obtain ⟨x, atRow, evaluates⟩ := values.getElem atExpr
  have once := relational.once id reached
  rw [operator] at once
  refine ⟨x, evaluates.congr fun w occurs => ?_, Tuple.extend_getElem once atVar atRow⟩
  obtain ⟨y, defined⟩ := evaluates.defined w occurs
  have inInput : w ∈ plan.columns input := by
    by_contra absent
    rw [within w absent] at defined
    cases defined
  exact (relational.extend_of_input reached operator source inInput t row).symm

include relational reached in
/-- A join of tuples has the facts of both sides, and its condition is true. -/
theorem satisfies_join {condition : Expr} {left right : NodeId} {leftFacts rightFacts : Facts}
    (operator : plan.operator id = .join .inner condition)
    (sourceLeft : (plan.inputs id)[0]? = some left)
    (sourceRight : (plan.inputs id)[1]? = some right)
    (satisfiedLeft : plan.Satisfies I left leftFacts)
    (satisfiedRight : plan.Satisfies I right rightFacts) :
    plan.Satisfies I id (Facts.assume ⟨leftFacts.equivalence.union rightFacts.equivalence,
      leftFacts.dependencies ++ rightFacts.dependencies⟩ condition) := by
  have columns : plan.columns id = ((plan.inputs id).map plan.columns).flatten := by
    rw [relational.current.columns_eq reached (by simp [operator]), operator]
    rfl
  have paired : ∀ frames ts, plan.Yields I frames id ts → ∃ us ws,
      plan.Yields I frames left us ∧ plan.Yields I frames right ws ∧
      ∀ o ∈ ts, condition.Evaluates I o (.boolean true) ∧
        ∃ t ∈ us, ∃ u ∈ ws, o = Tuple.join (plan.columns left) t u := by
    intro frames ts run
    obtain ⟨ins, inputs, _, emits⟩ := run.emits operator trivial
    refine ⟨ins 0, ins 1, inputs 0 left sourceLeft, inputs 1 right sourceRight, fun o member => ?_⟩
    obtain ⟨t, ht, ⟨u, hu, rfl, isTrue⟩ | ⟨impossible, _⟩⟩ := emits.makes member
    · rw [inputColumns_of_getElem? sourceLeft] at isTrue ⊢
      exact ⟨isTrue, t, ht, u, hu, rfl⟩
    · cases impossible
  have carriedLeft : plan.Satisfies I id leftFacts := by
    refine satisfiedLeft.carry (fun frames ts run => ?_) fun v member => ?_
    · obtain ⟨us, ws, runLeft, _, each⟩ := paired frames ts run
      refine ⟨us, runLeft, fun o member => ?_⟩
      obtain ⟨_, t, ht, u, _, rfl⟩ := each o member
      exact ⟨t, ht, fun v listed => Tuple.join_of_mem listed⟩
    · rw [columns]
      exact mem_flatten_columns sourceLeft member
  have carriedRight : plan.Satisfies I id rightFacts := by
    refine satisfiedRight.carry (fun frames ts run => ?_) fun v member => ?_
    · obtain ⟨us, ws, _, runRight, each⟩ := paired frames ts run
      refine ⟨ws, runRight, fun o member => ?_⟩
      obtain ⟨_, t, _, u, hu, rfl⟩ := each o member
      refine ⟨u, hu, fun v listed => Tuple.join_of_not_mem fun inLeft => ?_⟩
      refine relational.apart id _ _ reached operator v ?_ ?_
      · rwa [inputColumns_of_getElem? sourceLeft]
      · rwa [inputColumns_of_getElem? sourceRight]
    · rw [columns]
      exact List.mem_flatten.mpr
        ⟨_, List.mem_map_of_mem (List.mem_of_getElem? sourceRight), member⟩
  have both : plan.Satisfies I id ⟨leftFacts.equivalence.union rightFacts.equivalence,
      leftFacts.dependencies ++ rightFacts.dependencies⟩ := by
    intro frames ts invoked run
    obtain ⟨holdLeft, withinLeft⟩ := carriedLeft frames ts invoked run
    obtain ⟨holdRight, withinRight⟩ := carriedRight frames ts invoked run
    refine ⟨⟨fun t member => (holdLeft.equivalence t member).union (holdRight.equivalence t member),
      fun d listed => ?_⟩, fun t member => ⟨(withinLeft t member).equivalence.union
        (withinRight t member).equivalence, fun d listed => ?_⟩⟩
    · exact (List.mem_append.mp listed).elim (holdLeft.dependencies d) (holdRight.dependencies d)
    · exact (List.mem_append.mp listed).elim ((withinLeft t member).dependencies d)
        ((withinRight t member).dependencies d)
  refine both.assume relational.current reached fun frames ts run o member => ?_
  obtain ⟨us, ws, _, _, each⟩ := paired frames ts run
  exact (each o member).1

include relational reached operator source in
/-- Operators whose tuples are tuples of their input restricted to some variables. -/
theorem satisfies_restricted (satisfied : plan.Satisfies I input facts) (plain : op.IsPlain)
    (schema : ∀ inputs nested, op.schema inputs nested = vars)
    (restricted : ∀ columns ins out, op.Emits I columns ins out →
      ∀ o ∈ out, ∃ t ∈ ins 0, o = t.restrict vars) :
    plan.Satisfies I id (facts.restrict vars) := by
  intro frames ts invoked run
  obtain ⟨ins, inputs, _, emits⟩ := run.emits operator plain
  obtain ⟨hold, _⟩ := satisfied frames (ins 0) invoked (inputs 0 input source)
  refine ⟨(hold.restrict vars).transfer fun o member => ?_, fun t _ => ?_⟩
  · obtain ⟨t, ht, rfl⟩ := restricted _ _ _ emits o member
    exact ⟨t, ht, fun v mention => Tuple.restrict_of_mem ((Facts.Within.restrict facts vars).mem mention)⟩
  · rw [relational.current.columns_plain reached operator plain, schema]
    exact .restrict facts vars

include relational reached in
theorem satisfies_aggregate {exprs : List Expr} (operator : plan.operator id = .aggregate vars exprs) :
    plan.Satisfies I id ⟨{}, [.ofLists [] vars]⟩ := by
  intro frames ts _ run
  obtain ⟨ins, _, _, row, _, rfl⟩ := run.emits operator trivial
  constructor
  · refine Facts.HoldIn.none.addDependency fun t ht u hu _ v _ => ?_
    rw [List.mem_singleton.mp ht, List.mem_singleton.mp hu]
  · intro t _
    rw [relational.current.columns_eq reached (by simp [operator]), operator]
    refine (Facts.Within.empty vars).addDependency fun v mention => ?_
    exact (Facts.mentions_ofLists mention).elim (fun impossible => by cases impossible) fun h => h

theorem mem_groupNames {keys decor : List (Var × Expr)} {v w : Var}
    (named : w ∈ Session.groupNames (((Operator.groupBy keys decor nested).groupColumns?).getD []) v) :
    (w, Expr.var v) ∈ keys ++ decor := by
  obtain ⟨⟨w', v'⟩, column, rfl⟩ := List.mem_map.mp named
  obtain ⟨column, same⟩ := List.mem_filter.mp column
  obtain ⟨⟨name, e⟩, listed, shape⟩ := List.mem_filterMap.mp column
  obtain ⟨u, isVar, shape⟩ := Option.map_eq_some_iff.mp shape
  have same : v' = v := by simpa using same
  subst same
  cases shape
  cases e with
  | var u' => cases isVar; exact listed
  | const => cases isVar
  | call => cases isVar

include relational reached source in
/-- A group-by passes facts through under its names, and its keys determine all its columns. -/
theorem satisfies_groupBy {keys decor keys₀ decor₀ : List (Var × Expr)} {others : List Var}
    (operator : plan.operator id = .groupBy keys₀ decor₀ nested)
    (entries : ∀ entry, entry ∈ keys ++ decor ↔ entry ∈ keys₀ ++ decor₀)
    (isKey : plan.IsKey I id (keys.map (·.1))) (satisfied : plan.Satisfies I input facts)
    (listed : ∀ v ∈ others, v ∈ plan.columns id) :
    plan.Satisfies I id (Session.determining (facts.rename (Session.groupNames
      (((Operator.groupBy keys decor nested).groupColumns?).getD []))) (keys.map (·.1)) others) := by
  have once := relational.once id reached
  rw [operator] at once
  have produced : ∀ entry ∈ keys ++ decor, entry.1 ∈ plan.columns id := by
    intro entry member
    rw [relational.current.columns_eq reached (by simp [operator]), operator]
    exact mem_appendNew.mpr (.inr (List.mem_map_of_mem ((entries entry).mp member)))
  have renamed : plan.Satisfies I id (facts.rename (Session.groupNames
      (((Operator.groupBy keys decor nested).groupColumns?).getD []))) := by
    intro frames ts invoked run
    obtain ⟨input', us, source', tuples, values, _⟩ := run.groupBy_spec operator once
    cases source.symm.trans source'
    obtain ⟨hold, _⟩ := satisfied frames us invoked tuples
    refine ⟨hold.rename fun o member => ?_, fun t _ => ?_⟩
    · obtain ⟨t, ht, each⟩ := values o member
      refine ⟨t, ht, fun v w named => ?_⟩
      obtain ⟨x, value, atO⟩ := each _ ((entries _).mp (mem_groupNames named))
      exact atO.trans (Eq.symm value)
    · exact Facts.Within.rename facts fun v w named => produced _ (mem_groupNames named)
  refine renamed.determining isKey (fun v member => ?_) listed
  obtain ⟨entry, isEntry, rfl⟩ := List.mem_map.mp member
  exact produced entry (List.mem_append_left _ isEntry)

include relational reached source in
/-- The tuples of a subplan with deterministic nested plans are told apart by the columns of its
    input. -/
theorem isKey_subplan (operator : plan.operator id = .subplan nested) :
    plan.IsKey I id (plan.columns input) := by
  intro frames ts invoked run o member o' member' agree
  obtain ⟨us, inner, tuples, yielded, rfl⟩ := run.of_subplan operator source
  obtain ⟨i, small, rfl⟩ := List.mem_mapIdx.mp member
  obtain ⟨i', small', rfl⟩ := List.mem_mapIdx.mp member'
  have within := tuples.within relational.current
    (reached.input (List.mem_of_getElem? source)) (invoked.framesWithin relational.current)
  have sameTuple : us[i] = us[i'] := by
    refine (within _ (List.getElem_mem small)).eq_of_agreeOn (within _ (List.getElem_mem small'))
      fun v listed => ?_
    have same := agree v listed
    rwa [Tuple.join_of_mem listed, Tuple.join_of_mem listed] at same
  have sameInner : ∀ root ∈ plan.nestedRoots id, inner i root = inner i' root := by
    intro root isRoot
    have first := yielded i _ (List.getElem?_eq_getElem small) root isRoot
    have second := yielded i' _ (List.getElem?_eq_getElem small') root isRoot
    rw [← sameTuple] at second
    exact List.singleton_injective
      (first.unique (relational.steady id nested reached operator root isRoot) second)
  rw [sameTuple, combine_congr (fun _ _ => rfl) sameInner]

include relational reached source in
theorem satisfies_subplan {live others : List Var} (operator : plan.operator id = .subplan nested)
    (satisfied : plan.Satisfies I input facts) (isLive : SameVars live (plan.columns input))
    (listed : ∀ v ∈ others, v ∈ plan.columns id) :
    plan.Satisfies I id (Session.determining facts live others) := by
  have more : ∀ v ∈ plan.columns input, v ∈ plan.columns id := by
    intro v member
    rw [relational.current.columns_eq reached (by simp [operator]), operator]
    exact mem_appendNew.mpr (.inl (mem_flatten_columns source member))
  have carried : plan.Satisfies I id facts := by
    refine satisfied.carry (fun frames ts run => ?_) more
    obtain ⟨us, inner, tuples, _, rfl⟩ := run.of_subplan operator source
    refine ⟨us, tuples, fun o member => ?_⟩
    obtain ⟨i, small, rfl⟩ := List.mem_mapIdx.mp member
    exact ⟨us[i], List.getElem_mem small, fun v inInput => Tuple.join_of_mem inInput⟩
  refine carried.determining ?_ (fun v member => more v ((isLive v).mp member)) listed
  intro frames ts invoked run o member o' member' agree
  exact relational.isKey_subplan reached source operator frames ts invoked run o member o' member'
    fun v inInput => agree v ((isLive v).mpr inInput)

include relational reached in
theorem satisfies_nestedSource {owner : NodeId} (operator : plan.operator id = .nestedSource owner)
    (source : (plan.inputs owner)[0]? = some input) (satisfied : plan.Satisfies I input facts) :
    plan.Satisfies I id facts := by
  obtain ⟨input, source', columns⟩ := relational.current.columns_nestedSource reached operator
  cases source.symm.trans source'
  intro frames ts invoked run
  obtain ⟨around, _, us, invoked, source', tuples, subset⟩ := invoked.frame (run.frame operator)
  cases source.symm.trans source'
  obtain ⟨hold, within⟩ := satisfied around us invoked tuples
  exact ⟨hold.subset subset, fun t member => columns ▸ within t (subset t member)⟩

include relational reached in
/-- The primary key of a data source determines the variables of a scan. -/
theorem satisfies_scan {name : String} {dependencies : List Dependency}
    (operator : plan.operator id = .scan name vars)
    (derived : catalog.dependencies name vars = .ok dependencies) :
    plan.Satisfies I id ⟨{}, dependencies⟩ := by
  rcases Catalog.dependencies_spec derived with rfl |
    ⟨source, keys, isSource, nonempty, arity, bound, rfl⟩
  · exact satisfies_empty
  have once := relational.once id reached
  rw [operator] at once
  have listed : ∀ v, v ∈ vars → v ∈ plan.columns id := fun v member =>
    (relational.mem_columns_of_addNew reached operator rfl).mpr (.inr member)
  have keyListed : ∀ v ∈ keys, v ∈ vars := by
    intro v isKey
    obtain ⟨column, _, named⟩ := exists_replaced (mapM_ok_iff_forall₂.mp bound) isKey
    obtain ⟨i, _, atVar⟩ := source.columnVar_spec arity named
    exact List.mem_of_getElem? atVar
  intro frames ts invoked run
  obtain ⟨ins, inputs, missing, rfl⟩ := run.emits operator trivial
  -- The values of a tuple of the scan are those of its row.
  have fromRow : ∀ o ∈ (ins 0).flatMap fun t => (I.rows name).map fun row => t.extend vars row,
      ∃ row ∈ I.rows name, ∀ (i : Nat) v, vars[i]? = some v → o v = row[i]? := by
    intro o member
    obtain ⟨t, ht, inRows⟩ := List.mem_flatMap.mp member
    obtain ⟨row, isRow, rfl⟩ := List.mem_map.mp inRows
    refine ⟨row, isRow, fun i v atVar => Tuple.extend_getElem? once atVar ?_⟩
    cases first : (plan.inputs id)[0]? with
    | none => rw [missing 0 first] at ht; cases ht
    | some input =>
      have isInput := List.mem_of_getElem? first
      refine (inputs 0 input first).within relational.current (reached.input isInput)
        (invoked.framesWithin relational.current) t ht v fun inInput => ?_
      have produced : v ∈ (plan.operator id).produced := by
        rw [operator]
        exact List.mem_of_getElem? atVar
      exact relational.fresh id reached v produced input isInput inInput
  constructor
  · refine Facts.HoldIn.none.addDependency fun o ho o' ho' agree v inTail => ?_
    obtain ⟨row, isRow, values⟩ := fromRow o ho
    obtain ⟨row', isRow', values'⟩ := fromRow o' ho'
    have hasKey : source.key ≠ [] := by
      intro noKey
      rw [noKey, mapM_nil_ok_iff] at bound
      exact nonempty bound
    have sameRow : row = row' := by
      refine relational.keyed name source isSource hasKey row isRow row' isRow' ?_
      intro column isKey i position
      obtain ⟨w, inKeys, named⟩ := exists_replacing (mapM_ok_iff_forall₂.mp bound) isKey
      obtain ⟨i', position', atVar⟩ := source.columnVar_spec arity named
      cases position.symm.trans position'
      rw [← values i w atVar, ← values' i w atVar]
      exact agree w (VarSet.mem_ofList.mpr inKeys)
    obtain ⟨inVars, _⟩ := List.mem_filter.mp (VarSet.mem_ofList.mp inTail)
    obtain ⟨i, atVar⟩ := List.mem_iff_getElem?.mp inVars
    rw [values i v atVar, values' i v atVar, sameRow]
  · intro o _
    refine (Facts.Within.empty _).addDependency fun v mention => listed v ?_
    rcases Facts.mentions_ofLists mention with inHead | inTail
    · exact keyListed v inHead
    · exact (List.mem_filter.mp inTail).1

end Relational

end Plan

end QueryOptimizer
