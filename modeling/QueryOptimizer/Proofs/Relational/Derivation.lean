import Mathlib
import QueryOptimizer.Proofs.Derivation.Facts
import QueryOptimizer.Proofs.Relational.Operators

/-! # Derived facts are true

The facts that are derived for a node hold in all tuples that the node yields, in every run of the
plan.
-/

namespace QueryOptimizer

namespace Session

variable {original : Plan} {I : Interpretation} {catalog : Catalog} {s s' : Session} {id : NodeId}
  {facts : Facts}

/-- Whether a session only knows facts that are true of the original plan. -/
structure Sound (I : Interpretation) (original : Plan) (catalog : Catalog) (s : Session) : Prop where
  follows : original.Follows I s.plan
  catalog : s.context.catalog = catalog
  facts : ∀ n facts, original.Reaches n → s.context.facts.get? n = some facts →
    original.Satisfies I n facts

section

variable (sound : s.Sound I original catalog) (relational : original.Relational I catalog)
  (reached : original.Reaches id)

include sound reached

theorem Sound.inputFacts {index : Nat} (known : s.inputFacts id index = .ok facts) :
    ∃ input, (original.inputs id)[index]? = some input ∧ original.Satisfies I input facts := by
  obtain ⟨input, found, cached⟩ := inputFacts_ok known
  rw [sound.follows.inputs id] at found
  exact ⟨input, found,
    sound.facts input facts (reached.input (List.mem_of_getElem? found)) cached⟩

/-- The columns of a node that are no keys are columns of the original. -/
theorem Sound.mem_columns {schema : List Var} (stored : s.plan.schema id = .ok schema) {v : Var} :
    v ∈ schema ↔ v ∈ original.columns id :=
  sound.follows.schemas id schema reached (Plan.schema_ok_iff.mp stored) v

include relational

theorem Sound.joinFacts {kind : JoinKind} {condition : Expr}
    (operator : original.operator id = .join kind condition)
    (derived : s.joinFacts id kind condition = .ok facts) : original.Satisfies I id facts := by
  obtain ⟨left, knownLeft, derived⟩ := bind_ok_iff.mp derived
  obtain ⟨right, knownRight, derived⟩ := bind_ok_iff.mp derived
  obtain ⟨_, sourceLeft, satisfiedLeft⟩ := sound.inputFacts reached knownLeft
  obtain ⟨_, sourceRight, satisfiedRight⟩ := sound.inputFacts reached knownRight
  cases kind with
  | leftOuter => exact absurd operator (relational.inner id condition reached)
  | inner =>
    cases pure_ok_iff.mp derived
    exact relational.satisfies_join reached operator sourceLeft sourceRight satisfiedLeft
      satisfiedRight

theorem Sound.groupByFacts {keys decor keys₀ decor₀ : List (Var × Expr)} {nested : NestedPlans}
    (operator : original.operator id = .groupBy keys₀ decor₀ nested)
    (shape : s.plan.operator id = .groupBy keys decor nested)
    (entries : ∀ entry, entry ∈ keys ++ decor ↔ entry ∈ keys₀ ++ decor₀)
    (derived : s.factsFromInputs id = .ok facts) : original.Satisfies I id facts := by
  unfold Session.factsFromInputs at derived
  rw [shape] at derived
  obtain ⟨input, known, derived⟩ := bind_ok_iff.mp derived
  obtain ⟨schema, stored, derived⟩ := bind_ok_iff.mp derived
  cases pure_ok_iff.mp derived
  obtain ⟨_, source, satisfied⟩ := sound.inputFacts reached known
  exact relational.satisfies_groupBy reached source operator entries
    (sound.follows.keys id keys decor nested reached shape) satisfied
    fun v member => (sound.mem_columns reached stored).mp (List.mem_filter.mp member).1

theorem Sound.subplanFacts {nested : NestedPlans} (operator : original.operator id = .subplan nested)
    (shape : s.plan.operator id = .subplan nested) (derived : s.factsFromInputs id = .ok facts) :
    original.Satisfies I id facts := by
  unfold Session.factsFromInputs at derived
  rw [shape] at derived
  obtain ⟨input, known, derived⟩ := bind_ok_iff.mp derived
  obtain ⟨inputId, found, derived⟩ := bind_ok_iff.mp derived
  obtain ⟨live, storedInput, derived⟩ := bind_ok_iff.mp derived
  obtain ⟨schema, stored, derived⟩ := bind_ok_iff.mp derived
  cases pure_ok_iff.mp derived
  obtain ⟨_, source, satisfied⟩ := sound.inputFacts reached known
  rw [Plan.input_ok_iff, sound.follows.inputs id] at found
  cases source.symm.trans found
  exact relational.satisfies_subplan reached source operator satisfied
    (fun v => sound.mem_columns (reached.input (List.mem_of_getElem? source)) storedInput)
    fun v member => (sound.mem_columns reached stored).mp (List.mem_filter.mp member).1

/-- The facts that a node gets from its inputs are true of its tuples. -/
theorem Sound.factsFromInputs (derived : s.factsFromInputs id = .ok facts) :
    original.Satisfies I id facts := by
  have regroups := sound.follows.regroups id
  have done := derived
  unfold Session.factsFromInputs at derived
  generalize shape : s.plan.operator id = op at derived regroups
  generalize operator : original.operator id = op₀ at regroups
  cases regroups with
  | @groupBy keys₀ decor₀ keys decor nested entries =>
    exact sound.groupByFacts relational reached operator shape (fun _ => entries.mem_iff) done
  | same =>
    cases op with
    | emptySource | write | insertDelete | sink | unionAll | script =>
      cases derived
      exact Plan.satisfies_empty
    | nestedSource owner =>
      have owner := relational.owned id owner reached operator
      obtain ⟨input, source, satisfied⟩ := sound.inputFacts owner derived
      exact relational.satisfies_nestedSource reached operator source satisfied
    | scan name vars =>
      obtain ⟨dependencies, found, derived⟩ := bind_ok_iff.mp derived
      cases pure_ok_iff.mp derived
      rw [sound.catalog] at found
      exact relational.satisfies_scan reached operator found
    | exchange | replicate | order | limit =>
      obtain ⟨input, source, satisfied⟩ := sound.inputFacts reached derived
      exact relational.satisfies_passed reached operator source satisfied trivial rfl
        fun _ _ _ emits _ member => emits.makes member
    | runningAggregate vars exprs =>
      obtain ⟨input, source, satisfied⟩ := sound.inputFacts reached derived
      refine relational.satisfies_extended reached operator source satisfied trivial rfl
        fun _ _ _ emits o member => ?_
      obtain ⟨t, fromInput, row, _, rfl⟩ := emits.makes member
      exact ⟨t, fromInput, row, rfl⟩
    | unnest v e position =>
      obtain ⟨input, source, satisfied⟩ := sound.inputFacts reached derived
      refine relational.satisfies_extended reached operator source satisfied trivial rfl
        fun _ _ _ emits o member => ?_
      obtain ⟨t, fromInput, x, y, rfl⟩ := emits.makes member
      exact ⟨t, fromInput, [x, y], rfl⟩
    | select condition =>
      obtain ⟨facts, known, derived⟩ := bind_ok_iff.mp derived
      cases pure_ok_iff.mp derived
      obtain ⟨input, source, satisfied⟩ := sound.inputFacts reached known
      exact relational.satisfies_select reached source operator satisfied
    | assign vars exprs =>
      obtain ⟨facts, known, derived⟩ := bind_ok_iff.mp derived
      cases pure_ok_iff.mp derived
      obtain ⟨input, source, satisfied⟩ := sound.inputFacts reached known
      exact relational.satisfies_assign reached source operator satisfied
    | project vars | distinct vars =>
      obtain ⟨facts, known, derived⟩ := bind_ok_iff.mp derived
      cases pure_ok_iff.mp derived
      obtain ⟨input, source, satisfied⟩ := sound.inputFacts reached known
      exact relational.satisfies_restricted reached operator source satisfied trivial
        (fun _ _ => rfl) fun _ _ _ emits _ member => emits.makes member
    | join kind condition => exact sound.joinFacts relational reached operator derived
    | groupBy keys decor nested =>
      exact sound.groupByFacts relational reached operator shape (fun _ => Iff.rfl) done
    | aggregate vars exprs =>
      cases derived
      exact relational.satisfies_aggregate reached operator
    | subplan nested => exact sound.subplanFacts relational reached operator shape done

/-! ## Derivation -/

theorem Sound.simplifyGroupBy (regrouped : original.Regrouped s.plan)
    (done : s.simplifyGroupBy id = .ok s') :
    s'.Sound I original catalog ∧ original.Regrouped s'.plan := by
  rcases simplifyGroupBy_cases done with ⟨rfl, _⟩ | ⟨keys, decor, nested, facts, shape, known, _, done⟩
  · exact ⟨sound, regrouped⟩
  · obtain ⟨input, source, satisfied⟩ := sound.inputFacts reached known
    have simplified := sound.follows.splitKeys shape source reached (relational.once id reached)
      satisfied
    have moved := regrouped.trans (.setOperator shape (facts.perm_splitKeys_decor keys decor))
    obtain ⟨plan, refreshed, rfl⟩ := refreshSchemas_ok done
    exact ⟨⟨simplified.refreshSchemas moved relational.current relational.owned refreshed, sound.catalog,
      sound.facts⟩, moved.trans (Plan.refreshSchemas_only refreshed).regrouped⟩

end

theorem Sound.note (sound : s.Sound I original catalog) (satisfied : original.Satisfies I id facts) :
    (s.mapContext (·.setFacts id facts)).Sound I original catalog := by
  refine ⟨sound.follows, sound.catalog, fun n known reached noted => ?_⟩
  rcases NodeTable.get?_insert_cases noted with ⟨rfl, rfl⟩ | before
  · exact satisfied
  · exact sound.facts n known reached before

/-- Deriving facts of one node keeps all known facts true. -/
theorem Sound.ensureFactsWithin (relational : s.plan.Relational I catalog) (fuel : Nat)
    (sound : s.Sound I s.plan catalog) (reached : s.plan.Reaches id)
    (done : ensureFactsWithin fuel s id = .ok s') : s'.Sound I s.plan catalog :=
  (ensureFactsWithin_keeps (P := fun s' => s'.Sound I s.plan catalog ∧ s.plan.Regrouped s'.plan)
    (fun holds reached _ source =>
      relational.owned.reaches_source reached (holds.2.sources _ ▸ source))
    (fun holds reached done => holds.1.simplifyGroupBy relational reached holds.2 done)
    (fun holds reached derived =>
      ⟨holds.1.note (holds.1.factsFromInputs relational reached derived), holds.2⟩)
    ⟨sound, .refl _⟩ reached done).1

theorem Sound.start (relational : s.plan.Relational I s.context.catalog)
    (fresh : s.context.facts = {}) : s.Sound I s.plan s.context.catalog := by
  refine ⟨⟨fun _ => rfl, fun _ => .same _, fun n keys decor nested reached operator => ?_,
    fun n vs reached stored v => ?_⟩, rfl, fun n facts _ cached => ?_⟩
  · have once := relational.once n reached
    rw [operator] at once
    exact Plan.isKey_groupBy operator once
  · rw [Plan.columns_of_schema (Plan.schema_ok_iff.mpr stored)]
  · rw [fresh] at cached
    cases cached

/-- In every run of a plan, derived facts are true of the tuples of their node: all members of a
    class have one value, the constant one if there is one, and tuples that agree on the head of a
    dependency agree on its tail. -/
theorem facts_hold_in_every_run (relational : s.plan.Relational I s.context.catalog)
    (fresh : s.context.facts = {}) (reached : s.plan.Reaches id)
    (derived : s.facts id = .ok (s', facts)) {frames : Frames} {ts : List Tuple}
    (invoked : s.plan.Invocation I frames) (run : s.plan.Yields I frames id ts) :
    facts.HoldIn ts := by
  obtain ⟨ensured, cached⟩ := facts_ok derived
  have sound := Sound.ensureFactsWithin relational _ (.start relational fresh) reached ensured
  exact (sound.facts id facts reached cached frames ts invoked run).1

/-- A world in which every data source has one row twice, and only random values are computed. -/
def sampleWorld : Interpretation where
  returns f _ _ := f = .random
  folds _ _ _ := False
  items _ := []
  ascends _ _ := true
  scripts _ _ _ := False
  rows _ := [[.boolean true], [.boolean true]]
  returns_unique deterministic isRandom := by subst isRandom; cases deterministic
  folds_unique _ impossible := impossible.elim
  eq_identical impossible := by cases impossible
  and_all impossible := by cases impossible

/-- A subplan over a scan of a data source without a key. Its nested plan gives a variable the value
    of an expression. -/
def sampleSession (e : Expr) : Session where
  plan := {
    nodes := [
      some { Node.above .emptySource [] with schema := some [] },
      some { Node.above (.scan "S" [1]) [0] with schema := some [1] },
      some { Node.above (.subplan [[4]]) [1] with schema := some [1, 2] },
      some { Node.above (.nestedSource 2) [] with schema := some [1] },
      some { Node.above (.assign [2] [e]) [3] with schema := some [1, 2] }],
    root := 2 }
  context := { catalog := ⟨[{ name := "S", columns := [("a", .boolean)] }]⟩ }

def sampleTuple : Tuple := Tuple.empty.extend [1] [.boolean true]

theorem sample_reaches {e : Expr} (reached : (sampleSession e).plan.Reaches id) :
    id ∈ [2, 1, 0, 4, 3] :=
  Plan.mem_reachable reached

/-- The scan yields the stored row twice. -/
theorem sample_scan (e : Expr) : (sampleSession e).plan.Yields sampleWorld .outer 1
    [sampleTuple, sampleTuple] := by
  have source : (sampleSession e).plan.Yields sampleWorld .outer 0 [Tuple.empty] :=
    @Plan.Yields.plain _ _ _ 0 (fun _ => []) _ (fun k input impossible => by cases impossible)
      (fun _ _ => rfl) rfl
  refine @Plan.Yields.plain _ _ _ 1 (fun k => if k = 0 then [Tuple.empty] else []) _
    (fun k input isInput => ?_) (fun k missing => ?_) rfl
  · cases k with
    | zero => cases isInput; exact source
    | succ k => cases isInput
  · cases k with
    | zero => cases missing
    | succ k => rfl

/-- The nested plan yields its one tuple with the value of the expression. -/
theorem sample_nested {e : Expr} {x : Scalar} (value : e.Evaluates sampleWorld sampleTuple x) :
    (sampleSession e).plan.Yields sampleWorld (Frames.outer.enter 2 [sampleTuple]) 4
      [sampleTuple.extend [2] [x]] := by
  refine @Plan.Yields.plain _ _ _ 4 (fun k => if k = 0 then [sampleTuple] else []) _
    (fun k input isInput => ?_) (fun k missing => ?_)
    ⟨[[x]], .cons ⟨x, [], rfl, value, rfl⟩ .nil, rfl⟩
  · cases k with
    | zero =>
      cases isInput
      have operator : (sampleSession e).plan.operator 3 = .nestedSource 2 := rfl
      exact .nestedSource operator rfl
    | succ k => cases isInput
  · cases k with
    | zero => cases missing
    | succ k => rfl

def sampleOutput (e : Expr) (x : Scalar) : Tuple :=
  Tuple.join [1] sampleTuple
    ((sampleSession e).plan.combine (fun _ => sampleTuple.extend [2] [x]) [4])

/-- The expression may have another value for each tuple. -/
theorem sample_run {e : Expr} {x y : Scalar} (first : e.Evaluates sampleWorld sampleTuple x)
    (second : e.Evaluates sampleWorld sampleTuple y) :
    (sampleSession e).plan.Yields sampleWorld .outer 2 [sampleOutput e x, sampleOutput e y] := by
  refine @Plan.Yields.subplan _ _ .outer 2 1 [[4]] [sampleTuple, sampleTuple]
    (fun i _ => sampleTuple.extend [2] [if i = 0 then x else y]) rfl rfl (sample_scan e) ?_
  intro i t position root isRoot
  have isRoot : root ∈ [4] := isRoot
  fin_cases isRoot
  match i with
  | 0 => cases position; exact sample_nested first
  | 1 => cases position; exact sample_nested second
  | i + 2 => cases position

theorem sample_relational : (sampleSession (.var 1)).plan.Relational sampleWorld
    (sampleSession (.var 1)).context.catalog where
  current id reached := by
    have member := sample_reaches reached
    fin_cases member <;> exact ⟨_, rfl, rfl⟩
  owned id owner reached operator := by
    have member := sample_reaches reached
    fin_cases member <;> cases operator
    exact .refl
  once id reached := by
    have member := sample_reaches reached
    fin_cases member <;> decide
  fresh id reached := by
    have member := sample_reaches reached
    fin_cases member <;> decide
  apart id kind condition reached operator := by
    have member := sample_reaches reached
    fin_cases member <;> cases operator
  inner id condition reached operator := by
    have member := sample_reaches reached
    fin_cases member <;> cases operator
  keyed name source found hasKey := by
    have listed := List.mem_of_find?_eq_some found
    cases List.mem_singleton.mp listed
    exact absurd rfl hasKey
  steady id nested reached operator root isRoot n below := by
    have member := sample_reaches reached
    fin_cases member <;> cases operator
    have isRoot : root ∈ [4] := isRoot
    fin_cases isRoot
    have inside : n ∈ [3, 4] := by
      refine Plan.Below.of_closed (show 4 ∈ [3, 4] by decide)
        (fun parent member child below => ?_) below
      fin_cases member
      · have below : child ∈ [] := below
        cases below
      · have below : child ∈ [3] := below
        fin_cases below; decide
    fin_cases inside
    · exact ⟨rfl, by decide⟩
    · exact ⟨rfl, by decide⟩

/-- Derived facts are true of the tuples of a subplan that copies a variable: the variable of its
    input determines the copy. -/
theorem facts_hold_in_every_run_copied : ∃ s' facts,
    (sampleSession (.var 1)).facts 2 = .ok (s', facts) ∧ facts.dependencies = [.ofLists [1] [2]] ∧
      facts.HoldIn [sampleOutput (.var 1) (.boolean true), sampleOutput (.var 1) (.boolean true)] :=
  ⟨_, _, rfl, rfl, facts_hold_in_every_run sample_relational rfl .refl rfl .outer
    (sample_run rfl rfl)⟩

/-- With a random value instead, the derived dependency is false. -/
theorem random_subplan_not_determined : ∃ s' facts ts,
    (sampleSession (.call .random [] [])).facts 2 = .ok (s', facts) ∧
      (sampleSession (.call .random [] [])).plan.Yields sampleWorld .outer 2 ts ∧
      ¬ facts.HoldIn ts := by
  refine ⟨_, ⟨{}, [.ofLists [1] [2]]⟩, _, rfl,
    sample_run (x := .boolean true) (y := .boolean false) ⟨[], rfl, rfl⟩ ⟨[], rfl, rfl⟩, fun hold => ?_⟩
  have dependency := hold.dependencies _ List.mem_cons_self _ List.mem_cons_self _
    (List.mem_cons_of_mem _ List.mem_cons_self)
  have same := dependency (by decide) 2 (by decide)
  cases same

end Session

end QueryOptimizer
