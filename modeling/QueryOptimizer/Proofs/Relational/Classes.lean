import Mathlib
import QueryOptimizer.Proofs.Derivation.Found
import QueryOptimizer.Proofs.Plan.Producers

/-! # Equal variables

Whatever a derivation says about dependencies, variables of one class are equal in every tuple that
the node yields. This holds of outer joins and of nested plans with choices too, and of the plan as it
was before its group-bys were simplified. It takes that no variable reaches an operator from two
inputs: a tuple has one value of a variable only.
-/

namespace QueryOptimizer

/-- Whether the classes of some facts are true of a tuple, and only speak about listed variables. -/
structure Facts.Equates (facts : Facts) (vs : List Var) (t : Tuple) : Prop where
  holds : facts.equivalence.HoldsIn t
  within : facts.equivalence.Within vs

namespace Facts.Equates

variable {I : Interpretation} {facts : Facts} {vs ws : List Var} {t o : Tuple} {v : Var} {e : Expr}

theorem empty (dependencies : List Dependency) : Equates ⟨{}, dependencies⟩ vs t :=
  ⟨.empty t, fun _ ⟨_, impossible, _⟩ => by cases impossible⟩

variable (equates : facts.Equates vs t)

include equates

/-- Classes are true of every tuple with the same values. -/
theorem transfer (same : ∀ v ∈ vs, o v = t v) (more : ∀ v ∈ vs, v ∈ ws) : facts.Equates ws o :=
  ⟨equates.holds.transfer fun v mention => same v (equates.within v mention),
    fun v mention => more v (equates.within v mention)⟩

theorem merge {w : Var} (same : t v = t w) (hv : v ∈ vs) (hw : w ∈ vs) :
    (facts.merge v w).Equates vs t :=
  ⟨equates.holds.merge same, equates.within.merge hv hw⟩

theorem addConstant {value : Scalar} (same : t v = some value) (hv : v ∈ vs) :
    (facts.addConstant v value).Equates vs t :=
  ⟨equates.holds.addConstant same, equates.within.addConstant hv⟩

theorem pin {value : Scalar} (same : t v = some value) (hv : v ∈ vs) :
    (if Dependency.constant v ∈ (facts.addConstant v value).dependencies
      then facts.addConstant v value
      else (facts.addConstant v value).addDependency (.constant v)).Equates vs t := by
  obtain ⟨holds, within⟩ := equates.addConstant same hv
  split <;> exact ⟨holds, within⟩

theorem determining {head tail : List Var} : (Session.determining facts head tail).Equates vs t := by
  unfold Session.determining
  split
  · exact equates
  · exact ⟨equates.holds, equates.within⟩

theorem assumeConjunct (isTrue : e.Evaluates I t (.boolean true))
    (listed : ∀ v ∈ e.occurrences, v ∈ vs) : (facts.assumeConjunct e).Equates vs t := by
  unfold Facts.assumeConjunct
  split
  · obtain ⟨x, left, right⟩ := equal_of_true isTrue
    exact equates.merge (Eq.trans left (Eq.symm right)) (listed _ List.mem_cons_self)
      (listed _ (List.mem_cons_of_mem _ List.mem_cons_self))
  · obtain ⟨x, left, right⟩ := equal_of_true isTrue
    exact equates.pin (Eq.trans left (congrArg some right)) (listed _ List.mem_cons_self)
  · obtain ⟨x, left, right⟩ := equal_of_true isTrue
    exact equates.pin (Eq.trans right (congrArg some left)) (listed _ List.mem_cons_self)
  · exact equates

/-- A condition that is true of the tuple may be assumed. -/
theorem assume (isTrue : e.Evaluates I t (.boolean true)) (listed : ∀ v ∈ e.occurrences, v ∈ vs) :
    (facts.assume e).Equates vs t := by
  refine foldl_keeps (fun facts : Facts => facts.Equates vs t)
    (fun conjunct member facts equates => ?_) equates
  exact equates.assumeConjunct (isTrue.conjunct member) fun v occurs =>
    listed v (Expr.mem_occurrences_of_conjunct member occurs)

/-- A variable that has the value of an expression may be assigned. -/
theorem assign {x : Scalar} (value : e.Evaluates I t x) (same : t v = some x) (hv : v ∈ vs)
    (listed : ∀ w ∈ e.occurrences, w ∈ vs) : (facts.assign v e).Equates vs t := by
  have compute : ∀ {facts : Facts}, facts.Equates vs t →
      (Facts.assign.compute facts v e).Equates vs t := by
    intro facts equates
    unfold Facts.assign.compute
    dsimp only
    split <;> exact ⟨equates.holds, equates.within⟩
  cases e with
  | const c =>
    obtain ⟨holds, within⟩ := equates.addConstant (same.trans (congrArg some value)) hv
    exact ⟨holds, within⟩
  | var w =>
    exact compute (equates.merge (Eq.trans value same.symm) (listed w List.mem_cons_self) hv)
  | call f args hints => exact compute equates

theorem restrict (ws : List Var) : (facts.restrict ws).Equates ws (t.restrict ws) := by
  have within := (Facts.Within.restrict facts ws).equivalence
  exact ⟨(equates.holds.restrict fun v => decide (v ∈ ws)).transfer fun v mention =>
    Tuple.restrict_of_mem (within v mention), within⟩

end Facts.Equates

/-! ## Operators -/

namespace Operator

variable {I : Interpretation} {catalog : Catalog} {columns : VarSet} {facts : Facts} {op : Operator}
  {known : List (VarSet × Facts)} {cols nested : List (List Var)} {ins : Nat → List Tuple}
  {out : List Tuple}

/-- The facts that follow from those of the inputs equate variables that are equal in the tuples of
    an operator, if it produces new variables and gets each from one input only. -/
theorem Emits.equates (run : op.Emits I (fun k => cols[k]?.getD []) ins out)
    (within : ∀ k, ∀ t ∈ ins k, t.Within (cols[k]?.getD []))
    (equated : ∀ k entry, known[k]? = some entry → ∀ t ∈ ins k, entry.2.Equates (cols[k]?.getD []) t)
    (once : op.produced.Nodup) (fresh : ∀ v ∈ op.produced, v ∉ cols.flatten)
    (apart : ∀ v ∈ cols[0]?.getD [], v ∉ cols[1]?.getD [])
    (follow : op.facts? catalog columns known = some facts) :
    ∀ o ∈ out, facts.Equates (op.schema cols nested) o := by
  have first : ∀ v ∈ cols[0]?.getD [], v ∈ cols.headD [] := fun v member => headD_eq_getD cols ▸ member
  -- What has a value is a column.
  have defined : ∀ {e : Expr} {t : Tuple} {vs : List Var} {x : Scalar}, t.Within vs →
      e.Evaluates I t x → ∀ v ∈ e.occurrences, v ∈ vs := by
    intro e t vs x inside value v occurs
    obtain ⟨y, hasValue⟩ := value.defined v occurs
    by_contra absent
    rw [inside v absent] at hasValue
    cases hasValue
  have extended : ∀ {entry : VarSet × Facts} {t : Tuple} (row : List Scalar), known[0]? = some entry →
      t ∈ ins 0 → entry.2.Equates (appendNew cols.flatten op.produced) (t.extend op.produced row) := by
    intro entry t row isKnown member
    refine (equated 0 entry isKnown t member).transfer (fun v listed => ?_) fun v listed =>
      mem_appendNew.mpr (.inl (mem_flatten_getD 0 listed))
    exact Tuple.extend_of_not_mem fun produced => fresh v produced (mem_flatten_getD 0 listed)
  intro o member
  have made := run.makes member
  cases op with
  | nestedSource | groupBy | subplan => exact made.elim
  | emptySource | write | insertDelete | sink | unionAll | script | aggregate =>
    cases follow
    exact .empty _
  | scan =>
    obtain ⟨ds, _, rfl⟩ := Option.map_eq_some_iff.mp follow
    exact .empty ds
  | exchange | replicate | limit | order =>
    obtain ⟨entry, isKnown, rfl⟩ := Option.map_eq_some_iff.mp follow
    exact (equated 0 entry isKnown o made).transfer (fun _ _ => rfl) first
  | runningAggregate =>
    obtain ⟨entry, isKnown, rfl⟩ := Option.map_eq_some_iff.mp follow
    obtain ⟨t, fromInput, row, _, rfl⟩ := made
    exact extended row isKnown fromInput
  | unnest =>
    obtain ⟨entry, isKnown, rfl⟩ := Option.map_eq_some_iff.mp follow
    obtain ⟨t, fromInput, x, y, rfl⟩ := made
    exact extended [x, y] isKnown fromInput
  | select condition =>
    obtain ⟨entry, isKnown, rfl⟩ := Option.map_eq_some_iff.mp follow
    obtain ⟨fromInput, isTrue⟩ := made
    have passed : entry.2.Equates (cols.headD []) o :=
      (equated 0 entry isKnown o fromInput).transfer (fun _ _ => rfl) first
    exact passed.assume isTrue fun v occurs => first v (defined (within 0 o fromInput) isTrue v occurs)
  | join kind condition =>
    obtain ⟨left, isLeft, follow⟩ := Option.bind_eq_some_iff.mp follow
    obtain ⟨right, isRight, rfl⟩ := Option.map_eq_some_iff.mp follow
    obtain ⟨t, inLeft, origin⟩ := made
    have fromLeft : ∀ {u : Tuple}, left.2.Equates cols.flatten (Tuple.join (cols[0]?.getD []) t u) :=
      (equated 0 left isLeft t inLeft).transfer (fun v listed => Tuple.join_of_mem listed) fun _ =>
        mem_flatten_getD 0
    cases kind with
    | inner =>
      obtain ⟨u, inRight, rfl, isTrue⟩ | ⟨impossible, _⟩ := origin
      · have fromRight : right.2.Equates cols.flatten (Tuple.join (cols[0]?.getD []) t u) :=
          (equated 1 right isRight u inRight).transfer (fun v listed =>
            Tuple.join_of_not_mem fun onLeft => apart v onLeft listed) fun _ => mem_flatten_getD 1
        have both : Facts.Equates ⟨left.2.equivalence.union right.2.equivalence,
            left.2.dependencies ++ right.2.dependencies⟩ cols.flatten
            (Tuple.join (cols[0]?.getD []) t u) :=
          ⟨fromLeft.holds.union fromRight.holds, (fromLeft (u := u)).within.union fromRight.within⟩
        refine both.assume isTrue (defined ?_ isTrue)
        refine ((within 1 u inRight).join t).mono fun v listed => ?_
        exact (List.mem_append.mp listed).elim (mem_flatten_getD 0) (mem_flatten_getD 1)
      · cases impossible
    | leftOuter =>
      obtain ⟨u, _, rfl, _⟩ | ⟨_, rfl⟩ := origin
      · exact ⟨fromLeft.holds, (fromLeft (u := u)).within⟩
      · exact ⟨fromLeft.holds, (fromLeft (u := t)).within⟩
  | assign vars exprs =>
    obtain ⟨entry, isKnown, rfl⟩ := Option.map_eq_some_iff.mp follow
    obtain ⟨t, fromInput, row, values, rfl⟩ := made
    refine foldl_keeps (fun facts : Facts =>
        facts.Equates (appendNew cols.flatten vars) (t.extend vars row))
      (fun assigned listed facts equates => ?_) (extended row isKnown fromInput)
    obtain ⟨j, position⟩ := List.mem_iff_getElem?.mp listed
    obtain ⟨atVar, atExpr⟩ := List.getElem?_zip_eq_some.mp position
    obtain ⟨x, atRow, evaluates⟩ := values.getElem atExpr
    have reads : ∀ w ∈ assigned.2.occurrences, w ∈ cols.flatten := fun w occurs =>
      mem_flatten_getD 0 (defined (within 0 t fromInput) evaluates w occurs)
    refine equates.assign (evaluates.congr fun w occurs => ?_) (Tuple.extend_getElem once atVar atRow)
      (mem_appendNew.mpr (.inr (List.mem_of_getElem? atVar))) fun w occurs =>
        mem_appendNew.mpr (.inl (reads w occurs))
    exact (Tuple.extend_of_not_mem fun produced => fresh w produced (reads w occurs)).symm
  | project vars | distinct vars =>
    obtain ⟨entry, isKnown, rfl⟩ := Option.map_eq_some_iff.mp follow
    obtain ⟨t, inside, rfl⟩ := made
    exact (equated 0 entry isKnown t inside).restrict vars

end Operator

/-! ## Plans -/

namespace Plan

variable {plan plan' : Plan} {I : Interpretation} {catalog : Catalog} {columns : NodeId → VarSet}
  {n input : NodeId} {facts : Facts}

/-- Whether no variable reaches a node from two of its inputs. -/
def InputsApart (plan : Plan) : Prop :=
  ∀ n, plan.Reaches n → ∀ v ∈ plan.inputColumns n 0, v ∉ plan.inputColumns n 1

/-- A variable reaches a node from one input at most. -/
theorem InputsApart.unique (apart : plan.InputsApart) (wellFormed : plan.WellFormed)
    (reached : plan.Reaches n) {c d : NodeId} {v : Var} (isC : c ∈ plan.inputs n)
    (isD : d ∈ plan.inputs n) (inC : v ∈ plan.columns c) (inD : v ∈ plan.columns d) : c = d := by
  have two : (plan.inputs n).length ≤ 2 := by
    rw [wellFormed.arity n reached]
    cases plan.operator n <;> simp [Operator.arity]
  obtain ⟨i, smallI, rfl⟩ := List.getElem_of_mem isC
  obtain ⟨j, smallJ, rfl⟩ := List.getElem_of_mem isD
  rw [← inputColumns_of_getElem? (List.getElem?_eq_getElem smallI)] at inC
  rw [← inputColumns_of_getElem? (List.getElem?_eq_getElem smallJ)] at inD
  obtain same | ⟨rfl, rfl⟩ | ⟨rfl, rfl⟩ : i = j ∨ (i = 0 ∧ j = 1) ∨ (i = 1 ∧ j = 0) := by omega
  · simp only [same]
  · exact absurd inD (apart n reached v inC)
  · exact absurd inC (apart n reached v inD)

/-- Whether some facts equate variables that are equal in all tuples of a node. -/
def Equates (plan : Plan) (I : Interpretation) (n : NodeId) (facts : Facts) : Prop :=
  ∀ frames ts, plan.Invocation I frames → plan.Yields I frames n ts →
    ∀ t ∈ ts, facts.Equates (plan.columns n) t

section Nodes

variable (current : plan.SchemasCurrent) (reached : plan.Reaches n)

include current reached

theorem equates_nestedSource {owner : NodeId} (operator : plan.operator n = .nestedSource owner)
    (source : (plan.inputs owner)[0]? = some input) (equates : plan.Equates I input facts) :
    plan.Equates I n facts := by
  obtain ⟨input, source', columns⟩ := current.columns_nestedSource reached operator
  cases source.symm.trans source'
  intro frames ts invoked run
  obtain ⟨around, _, us, invoked, source', tuples, subset⟩ := invoked.frame (run.frame operator)
  cases source.symm.trans source'
  rw [columns]
  exact fun t member => equates around us invoked tuples t (subset t member)

theorem equates_subplan {nested : NestedPlans} (operator : plan.operator n = .subplan nested)
    (source : (plan.inputs n)[0]? = some input) (equates : plan.Equates I input facts) :
    plan.Equates I n facts := by
  intro frames ts invoked run
  obtain ⟨us, inner, tuples, _, rfl⟩ := run.of_subplan operator source
  intro o member
  obtain ⟨i, small, rfl⟩ := List.mem_mapIdx.mp member
  refine (equates frames us invoked tuples us[i] (List.getElem_mem small)).transfer
    (fun v listed => Tuple.join_of_mem listed) fun v listed => ?_
  rw [current.columns_eq reached (by simp [operator]), operator]
  exact mem_appendNew.mpr (.inl (Relational.mem_flatten_columns source listed))

/-- A group-by gives names to values of its input. It does not matter which of them are keys. -/
theorem equates_groupBy {keys decor keys' decor' : List (Var × Expr)} {nested : NestedPlans}
    (operator : plan.operator n = .groupBy keys decor nested)
    (entries : (keys' ++ decor').Perm (keys ++ decor)) (once : (plan.operator n).produced.Nodup)
    (source : (plan.inputs n)[0]? = some input) (equates : plan.Equates I input facts) :
    plan.Equates I n (facts.rename (Session.groupNames
      (((Operator.groupBy keys' decor' nested).groupColumns?).getD []))) := by
  intro frames ts invoked run
  rw [operator] at once
  obtain ⟨input', us, source', tuples, values, _⟩ := run.groupBy_spec operator once
  cases source.symm.trans source'
  intro o member
  obtain ⟨t, fromInput, each⟩ := values o member
  constructor
  · refine (equates frames us invoked tuples t fromInput).holds.rename fun v w named => ?_
    obtain ⟨x, value, atO⟩ := each _ (entries.mem_iff.mp (Relational.mem_groupNames named))
    exact atO.trans (Eq.symm value)
  · refine Equivalence.Within.rename fun v w named => ?_
    rw [current.columns_eq reached (by simp [operator]), operator]
    exact mem_appendNew.mpr (.inr (List.mem_map_of_mem
      (entries.mem_iff.mp (Relational.mem_groupNames named))))

theorem equates_plain {known : List (VarSet × Facts)} {catalog : Catalog} {columns : VarSet}
    (plain : (plan.operator n).IsPlain) (once : (plan.operator n).produced.Nodup)
    (fresh : ∀ v ∈ (plan.operator n).produced, ∀ c ∈ plan.inputs n, v ∉ plan.columns c)
    (apart : ∀ v ∈ plan.inputColumns n 0, v ∉ plan.inputColumns n 1)
    (equates : ∀ (k : Nat) c entry, (plan.inputs n)[k]? = some c → known[k]? = some entry →
      plan.Equates I c entry.2)
    (follow : (plan.operator n).facts? catalog columns known = some facts) :
    plan.Equates I n facts := by
  intro frames ts invoked run
  obtain ⟨ins, inputs, missing, emits⟩ := run.emits rfl plain
  have each : ∀ k, ∀ t ∈ ins k, ∃ c, (plan.inputs n)[k]? = some c ∧
      ((plan.inputs n).map plan.columns)[k]?.getD [] = plan.columns c ∧
      plan.Yields I frames c (ins k) := by
    intro k t member
    cases found : (plan.inputs n)[k]? with
    | none => rw [missing k found] at member; cases member
    | some c => exact ⟨c, rfl, by simp [found], inputs k c found⟩
  rw [current.columns_eq reached (Operator.IsPlain.simple plain).2]
  rw [inputColumns_eq] at emits apart
  refine emits.equates (fun k t member => ?_) (fun k entry isKnown t member => ?_) once
    (fun v produced inside => ?_) apart follow
  · obtain ⟨c, found, listed, tuples⟩ := each k t member
    rw [listed]
    exact tuples.within current (reached.input (List.mem_of_getElem? found))
      (invoked.framesWithin current) t member
  · obtain ⟨c, found, listed, tuples⟩ := each k t member
    rw [listed]
    exact equates k c entry found isKnown frames (ins k) invoked tuples t member
  · obtain ⟨_, isColumns, inside⟩ := List.mem_flatten.mp inside
    obtain ⟨c, isInput, rfl⟩ := List.mem_map.mp isColumns
    exact fresh v produced c isInput inside

end Nodes

/-- The facts that are found on a plan equate variables that are equal. The plan may be as it was
    before its group-bys were simplified. -/
theorem Finds.equates (finds : plan'.Finds catalog columns n facts) (regrouped : plan.Regrouped plan')
    (wellFormed : plan.WellFormed) (current : plan.SchemasCurrent) (scope : plan.InScope)
    (once : plan.ProducedOnce) (apart : plan.InputsApart) (reached : plan.Reaches n) :
    plan.Equates I n facts := by
  induction finds with
  | @node n notes facts found follow ih =>
    have below : ∀ c ∈ plan.tupleSources n, plan.Equates I c (notes c) := fun c member =>
      ih c (regrouped.sources n ▸ mem_sources_of_tupleSource member)
        (wellFormed.reaches_source reached (mem_sources_of_tupleSource member))
    have follow := follow.follow
    unfold ins at follow
    rw [regrouped.tupleSources] at follow
    have regroups := regrouped.operator n
    have nodup := once.nodup reached
    by_cases isSource : ∃ owner, plan.operator n = .nestedSource owner
    · obtain ⟨owner, operator⟩ := isSource
      obtain ⟨input, source⟩ := wellFormed.exists_source reached operator
      rw [(regrouped.nestedSource_iff n owner).mpr operator] at follow
      rw [tupleSources_nestedSource operator, source] at follow below
      cases follow
      exact equates_nestedSource current reached operator source
        (below input (List.mem_singleton_self _))
    rw [tupleSources_eq_inputs (not_exists.mp isSource)] at follow below
    by_cases isGroupBy : ∃ keys decor nested, plan.operator n = .groupBy keys decor nested
    · obtain ⟨keys, decor, nested, operator⟩ := isGroupBy
      rw [operator] at regroups
      obtain ⟨keys', decor', operator', entries⟩ := regroups.of_groupBy
      rw [operator'] at follow
      obtain ⟨entry, isKnown, rfl⟩ := Option.map_eq_some_iff.mp follow
      obtain ⟨input, source, rfl⟩ :=
        Option.map_eq_some_iff.mp ((List.getElem?_map ..).symm.trans isKnown)
      exact fun frames ts invoked run t member => (equates_groupBy current reached operator entries
        nodup source (below input (List.mem_of_getElem? source)) frames ts invoked run t
        member).determining
    rw [regroups.eq_of_not_groupBy fun keys decor nested operator =>
      isGroupBy ⟨keys, decor, nested, operator⟩] at follow
    by_cases isSubplan : ∃ nested, plan.operator n = .subplan nested
    · obtain ⟨nested, operator⟩ := isSubplan
      rw [operator] at follow
      obtain ⟨entry, isKnown, rfl⟩ := Option.map_eq_some_iff.mp follow
      obtain ⟨input, source, rfl⟩ :=
        Option.map_eq_some_iff.mp ((List.getElem?_map ..).symm.trans isKnown)
      exact fun frames ts invoked run t member => (equates_subplan current reached operator source
        (below input (List.mem_of_getElem? source)) frames ts invoked run t member).determining
    have plain : (plan.operator n).IsPlain := by
      cases operator : plan.operator n with
      | nestedSource owner => exact isSource ⟨owner, operator⟩
      | groupBy keys decor nested => exact isGroupBy ⟨keys, decor, nested, operator⟩
      | subplan nested => exact isSubplan ⟨nested, operator⟩
      | _ => trivial
    refine equates_plain current reached plain nodup (fun v produced c isInput =>
      once.fresh current scope wellFormed reached produced isInput) (apart n reached)
      (fun k c entry found isKnown => ?_) follow
    rw [List.getElem?_map, found] at isKnown
    cases isKnown
    exact below c (List.mem_of_getElem? found)

end Plan

end QueryOptimizer
