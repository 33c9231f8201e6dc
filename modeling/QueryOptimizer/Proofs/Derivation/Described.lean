import Mathlib
import QueryOptimizer.Proofs.Derivation.Found
import QueryOptimizer.Proofs.Facts.Scope
import QueryOptimizer.Proofs.Plan.Schema
import QueryOptimizer.Proofs.Relational.Derivation
import QueryOptimizer.Proofs.Relational.Reworked

/-! # Variables of derived facts

The facts that are derived for a node are about its columns, and put each of them in one class at most.
An operator reads columns of its inputs only, so that what it adds to the facts of the inputs is about
its own columns again. A nested source has the columns of the node whose facts it takes.
-/

namespace QueryOptimizer

open Session (determining groupNames)

/-- Whether facts are about these columns, each of which is in one class at most. -/
structure Facts.Describe (facts : Facts) (columns : VarSet) : Prop where
  within : facts.Within columns.toList
  disjoint : facts.equivalence.Disjoint
  inhabited : facts.equivalence.Inhabited

namespace Facts

variable {facts : Facts} {vs head tail : List Var} {v : Var}

theorem describe_empty (columns : VarSet) : Facts.empty.Describe columns :=
  ⟨.empty _, .empty, Equivalence.kept_inhabited.empty⟩

theorem Within.determining (within : facts.Within vs) (heads : ∀ v ∈ head, v ∈ vs)
    (tails : ∀ v ∈ tail, v ∈ vs) : (determining facts head tail).Within vs := by
  unfold Session.determining
  split
  · exact within
  · exact within.addDependency fun v mention => (mentions_ofLists mention).elim (heads v) (tails v)

theorem mentions_outerJoin {condition : Expr} {left right : List Var} {d : Dependency}
    (member : d ∈ outerJoin condition left right) (mention : d.Mentions v) : v ∈ left ∨ v ∈ right := by
  obtain ⟨c, _, kept⟩ := List.mem_filterMap.mp member
  dsimp only at kept
  split at kept
  · cases kept
  · cases kept
    refine mention.imp (fun inHead => ?_) fun inTail => ?_
    · exact of_decide_eq_true (VarSet.mem_filter.mp inHead).2
    · exact of_decide_eq_true (VarSet.mem_filter.mp inTail).2

end Facts

/-- The dependency of a data source is about the variables of the scan. -/
theorem Catalog.mem_of_dependencies {catalog : Catalog} {name : String} {vs : List Var}
    {ds : List Dependency} {d : Dependency} {v : Var} (derived : catalog.dependencies name vs = .ok ds)
    (member : d ∈ ds) (mention : d.Mentions v) : v ∈ vs := by
  rcases dependencies_spec derived with rfl | ⟨source, keys, _, _, arity, bound, rfl⟩
  · cases member
  cases List.mem_singleton.mp member
  rcases Facts.mentions_ofLists mention with isKey | other
  · obtain ⟨column, _, bound⟩ := Plan.exists_replaced (mapM_ok_iff_forall₂.mp bound) isKey
    obtain ⟨i, _, position⟩ := Source.columnVar_spec arity bound
    exact List.mem_of_getElem? position
  · exact (List.mem_filter.mp other).1

section Operators

variable {catalog : Catalog} {op : Operator} {columns : VarSet} {ins : List (VarSet × Facts)}
  {facts : Facts}

/-- What an operator makes of facts about the columns of its inputs is about its own columns. -/
theorem Operator.facts?_within (nested : List (List Var)) (other : ∀ owner, op ≠ .nestedSource owner)
    (covers : ∀ v ∈ op.schema (ins.map (·.1.toList)) nested, v ∈ columns)
    (arity : ins.length = op.arity)
    (reads : ∀ condition ∈ op.exprs, ∀ v ∈ condition.occurrences, ∃ input ∈ ins, v ∈ input.1)
    (within : ∀ input ∈ ins, input.2.Within input.1.toList)
    (follow : op.facts? catalog columns ins = some facts) : facts.Within columns.toList := by
  have single : op.arity = 1 → ∃ input, ins = [input] := fun one =>
    List.length_eq_one_iff.mp (arity.trans one)
  have read : ∀ e ∈ op.exprs, ∀ v ∈ e.occurrences, v ∈ (ins.map (·.1.toList)).flatten := by
    intro e isExpr v occurs
    obtain ⟨input, member, inside⟩ := reads e isExpr v occurs
    exact List.mem_flatten.mpr ⟨_, List.mem_map_of_mem member, inside⟩
  cases op with
  | nestedSource owner => exact absurd rfl (other owner)
  | emptySource | write | insertDelete | sink | unionAll | script =>
    cases follow
    exact .empty _
  | scan source vars =>
    obtain ⟨ds, derived, rfl⟩ := Option.map_eq_some_iff.mp follow
    refine ⟨(Facts.Within.empty _).equivalence, fun d member v mention => ?_⟩
    exact covers v (mem_appendNew.mpr (.inr
      (Catalog.mem_of_dependencies (toOption_eq_some_iff.mp derived) member mention)))
  | exchange | order | limit | replicate =>
    obtain ⟨input, rfl⟩ := single rfl
    cases follow
    exact (within input List.mem_cons_self).mono covers
  | runningAggregate | unnest =>
    obtain ⟨input, rfl⟩ := single rfl
    cases follow
    exact (within input List.mem_cons_self).mono fun v inside =>
      covers v (mem_appendNew.mpr (.inl (List.mem_append_left _ inside)))
  | select condition =>
    obtain ⟨input, rfl⟩ := single rfl
    cases follow
    refine ((within input List.mem_cons_self).assume fun v occurs => ?_).mono covers
    exact (List.mem_append.mp (read condition List.mem_cons_self v occurs)).resolve_right
      List.not_mem_nil
  | join kind condition =>
    obtain ⟨left, right, rfl⟩ := List.length_eq_two.mp arity
    have withinLeft : left.2.Within columns.toList := (within left List.mem_cons_self).mono
      fun v inside => covers v (List.mem_append_left _ inside)
    have withinRight : right.2.Within columns.toList :=
      (within right (List.mem_cons_of_mem _ List.mem_cons_self)).mono fun v inside =>
        covers v (List.mem_append_right _ (List.mem_append_left _ inside))
    have both : ∀ d ∈ left.2.dependencies ++ right.2.dependencies, ∀ v, d.Mentions v →
        v ∈ columns.toList := fun d member =>
      (List.mem_append.mp member).elim (withinLeft.dependencies d) (withinRight.dependencies d)
    cases kind with
    | inner =>
      cases follow
      refine Facts.Within.assume ⟨withinLeft.equivalence.union withinRight.equivalence, both⟩
        fun v occurs => ?_
      exact covers v (read condition List.mem_cons_self v occurs)
    | leftOuter =>
      cases follow
      refine ⟨withinLeft.equivalence, fun d member v mention => ?_⟩
      rcases List.mem_append.mp member with before | new
      · exact both d before v mention
      · refine covers v ?_
        rcases Facts.mentions_outerJoin new mention with inLeft | inRight
        · exact List.mem_append_left _ inLeft
        · exact List.mem_append_right _ (List.mem_append_left _ inRight)
  | assign vars exprs =>
    obtain ⟨input, rfl⟩ := single rfl
    cases follow
    refine foldl_keeps (fun facts : Facts => facts.Within columns.toList)
      (fun entry member facts within => ?_) ?_
    · obtain ⟨isVar, isExpr⟩ := List.of_mem_zip member
      exact within.assign (covers _ (mem_appendNew.mpr (.inr isVar))) fun v occurs =>
        covers v (mem_appendNew.mpr (.inl (read entry.2 isExpr v occurs)))
    · exact (within input List.mem_cons_self).mono fun v inside =>
        covers v (mem_appendNew.mpr (.inl (List.mem_append_left _ inside)))
  | project vars | distinct vars =>
    obtain ⟨input, _, rfl⟩ := Option.map_eq_some_iff.mp follow
    exact (Facts.Within.restrict input.2 vars).mono covers
  | groupBy keys decor roots =>
    obtain ⟨input, _, rfl⟩ := Option.map_eq_some_iff.mp follow
    have named : ∀ entry ∈ keys ++ decor, entry.1 ∈ columns.toList := fun entry member =>
      covers _ (mem_appendNew.mpr (.inr (List.mem_map_of_mem member)))
    refine (Facts.Within.rename _ fun v w isName => ?_).determining (fun v isKey => ?_)
      fun v member => (List.mem_filter.mp member).1
    · obtain ⟨pair, passes, rfl⟩ := List.mem_map.mp isName
      obtain ⟨entry, member, isPair⟩ := List.mem_filterMap.mp (List.mem_filter.mp passes).1
      obtain ⟨_, _, rfl⟩ := Option.map_eq_some_iff.mp isPair
      exact named entry member
    · obtain ⟨entry, member, rfl⟩ := List.mem_map.mp isKey
      exact named entry (List.mem_append_left _ member)
  | aggregate vars exprs =>
    cases follow
    refine (Facts.Within.empty _).addDependency fun v mention => covers v ?_
    exact (Facts.mentions_ofLists mention).resolve_left List.not_mem_nil
  | subplan roots =>
    obtain ⟨input, rfl⟩ := single rfl
    cases follow
    have inside : ∀ v ∈ input.1.toList, v ∈ columns.toList := fun v inside =>
      covers v (mem_appendNew.mpr (.inl (List.mem_append_left _ inside)))
    exact ((within input List.mem_cons_self).mono inside).determining inside
      fun v member => (List.mem_filter.mp member).1

end Operators

theorem Operator.Regroups.mem_exprs {op op' : Operator} (regroups : op.Regroups op') {e : Expr}
    (member : e ∈ op'.exprs) : e ∈ op.exprs := by
  cases regroups with
  | same => exact member
  | groupBy nested entries => exact (entries.map (·.2)).mem_iff.mp member

namespace Session

variable {original : Plan} {columns : NodeId → VarSet} {s s' : Session} {id n : NodeId} {facts : Facts}

/-- Whether the notes about a plan describe its columns. Its schemas are computed. -/
structure Described (s : Session) (original : Plan) (columns : NodeId → VarSet) : Prop where
  regrouped : original.Regrouped s.plan
  stores : s.plan.Stores columns
  computed : ∀ n, original.Reaches n → (s.plan.node n).schema.isSome = true
  notes : ∀ n, original.Reaches n → (s.note n).Describe (columns n)

section Step

variable (described : s.Described original columns) (has : original.HasColumns columns)
  (owned : original.OwnersReachable)

include described has owned

/-- Simplifying a group-by changes no columns. -/
theorem Described.simplifyGroupBy (present : ∀ n, original.Reaches n → original.contains n = true)
    (done : s.simplifyGroupBy id = .ok s') : s'.Described original columns := by
  rcases simplifyGroupBy_cases done with ⟨rfl, _⟩ | ⟨keys, decor, nested, facts, shape, _, _, done⟩
  · exact described
  have moved : s.plan.Regrouped _ := .setOperator shape (facts.perm_splitKeys_decor keys decor)
  have regrouped := described.regrouped.trans moved
  obtain ⟨plan, refreshed, rfl⟩ := refreshSchemas_ok done
  refine ⟨regrouped.trans (Plan.refreshSchemas_only refreshed).regrouped, ?_, fun n reached => ?_,
    described.notes⟩
  · refine Plan.Stores.refreshSchemas (fun n vs reached stored => ?_) (has.regrouped regrouped)
      (owned.regrouped regrouped) refreshed
    rcases Plan.node_setOperator_cases s.plan id n _ with same | ⟨_, changed⟩
    · refine described.stores n vs (moved.redrawn.reaches_iff.mp reached) (Plan.schema_ok_iff.mpr ?_)
      exact same ▸ Plan.schema_ok_iff.mp stored
    · have stored := Plan.schema_ok_iff.mp stored
      rw [changed] at stored
      cases stored
  · exact Plan.refreshSchemas_some refreshed (regrouped.redrawn.reaches_iff.mpr reached)
      ((regrouped.contains n).trans (present n reached))

/-- What a node gets from notes about columns of its sources is about its own columns. -/
theorem Described.factsFromInputs (scope : ∀ n, original.Reaches n → ∀ e ∈ (original.operator n).exprs,
      ∀ v ∈ e.occurrences, ∃ c ∈ original.inputs n, v ∈ columns c)
    (arity : ∀ n, original.Reaches n → (original.inputs n).length = (original.operator n).arity)
    (reached : original.Reaches id) (derived : s.factsFromInputs id = .ok facts) :
    facts.Describe (columns id) := by
  have regrouped := described.regrouped
  have reached' := regrouped.redrawn.reaches_iff.mpr reached
  have follow := factsFromInputs_follow described.stores reached' derived
  have sources : ∀ input ∈ s.plan.ins columns s.note id, input.2.Describe input.1 := by
    intro input member
    obtain ⟨c, source, rfl⟩ := List.mem_map.mp member
    rw [regrouped.tupleSources] at source
    exact described.notes c (owned.reaches_source reached (Plan.mem_sources_of_tupleSource source))
  refine ⟨?_, Operator.facts?_keeps Equivalence.kept_disjoint
    (fun input member => (sources input member).disjoint) follow,
    Operator.facts?_keeps Equivalence.kept_inhabited
      (fun input member => (sources input member).inhabited) follow⟩
  have follows := has.regrouped regrouped id reached'
  by_cases source : ∃ owner, s.plan.operator id = .nestedSource owner
  · obtain ⟨owner, operator⟩ := source
    rw [operator] at follow
    obtain ⟨input, found, rfl⟩ := Option.map_eq_some_iff.mp follow
    have member := List.mem_of_getElem? found
    obtain ⟨c, source, rfl⟩ := List.mem_map.mp member
    rw [Plan.tupleSources_nestedSource operator, Option.mem_toList] at source
    rw [(Plan.columnsFollow_nestedSource operator).mp follows c source]
    exact (sources _ member).within
  · have other := not_exists.mp source
    have inputs : s.plan.ins columns s.note id =
        (s.plan.inputs id).map fun c => (columns c, s.note c) := by
      unfold Plan.ins
      rw [Plan.tupleSources_eq_inputs other]
    rw [inputs] at follow sources
    refine Operator.facts?_within ((s.plan.nestedRoots id).map fun c => (columns c).toList) other
      (fun v member => ?_) ?_ (fun e isExpr v occurs => ?_)
      (fun input member => (sources input member).within) follow
    · rw [(Plan.columnsFollow_iff other).mp follows]
      rw [List.map_map] at member
      exact VarSet.mem_ofList.mpr member
    · rw [List.length_map, regrouped.inputs, arity id reached, (regrouped.operator id).resembles.arity]
    · obtain ⟨c, isInput, inside⟩ :=
        scope id reached e ((regrouped.operator id).mem_exprs isExpr) v occurs
      exact ⟨_, List.mem_map_of_mem (regrouped.inputs id ▸ isInput), inside⟩

end Step

theorem Described.note (described : s.Described original columns) (describe : facts.Describe (columns id)) :
    (s.mapContext (·.setFacts id facts)).Described original columns := by
  refine ⟨described.regrouped, described.stores, described.computed, fun n reached => ?_⟩
  unfold Session.note
  cases noted : (s.mapContext (·.setFacts id facts)).context.facts.get? n with
  | none => exact Facts.describe_empty _
  | some known =>
    rcases NodeTable.get?_insert_cases noted with ⟨rfl, rfl⟩ | before
    · exact describe
    · exact note_eq before ▸ described.notes n reached

/-- At first nothing is noted. -/
theorem Described.start (current : s.plan.SchemasCurrent) (new : s.context.facts = {}) :
    s.Described s.plan fun n => .ofList (s.plan.columns n) := by
  refine ⟨.refl _, fun n vs _ stored => ?_, fun n reached => ?_, fun n _ => ?_⟩
  · rw [Plan.columns_of_schema stored]
  · obtain ⟨vs, stored, _⟩ := current n reached
    rw [Plan.schema_ok_iff.mp stored]
    rfl
  · unfold Session.note
    rw [new]
    exact Facts.describe_empty _

/-- The facts that are derived for a node of a valid plan are about columns of the node. Each class has a
    member, and no two classes have a member in common. -/
theorem facts_describe_columns (valid : s.plan.validate false = .ok ()) (current : s.plan.SchemasCurrent)
    (owned : s.plan.OwnersReachable)
    (arity : ∀ n, s.plan.Reaches n → (s.plan.inputs n).length = (s.plan.operator n).arity)
    (new : s.context.facts = {}) (reached : s.plan.Reaches id)
    (done : s.facts id = .ok (s', facts)) :
    (∀ v, facts.Mentions v → v ∈ s.plan.columns id ∧ v ∈ s'.plan.columns id) ∧
    (∀ c ∈ facts.equivalence.classes, ∃ v, v ∈ c.members) ∧
    facts.equivalence.classes.Pairwise fun c d => ∀ v ∈ c.members, v ∉ d.members := by
  have has := current.hasColumns
  have scope : ∀ n, s.plan.Reaches n → ∀ e ∈ (s.plan.operator n).exprs, ∀ v ∈ e.occurrences,
      ∃ c ∈ s.plan.inputs n, v ∈ VarSet.ofList (s.plan.columns c) := by
    intro n reached e isExpr v occurs
    obtain ⟨c, isInput, inside⟩ := (Plan.inScope_of_validate valid).reads reached rfl isExpr v occurs
    exact ⟨c, isInput, VarSet.mem_ofList.mpr inside⟩
  have start := Described.start current new
  obtain ⟨ensured, noted⟩ := facts_ok done
  have described : s'.Described s.plan fun n => .ofList (s.plan.columns n) :=
    ensureFactsWithin_keeps
      (P := fun s' => s'.Described s.plan fun n => .ofList (s.plan.columns n))
      (fun described reached c source =>
        owned.reaches_source reached (described.regrouped.sources _ ▸ source))
      (fun described _ done => described.simplifyGroupBy has owned
        (fun n reached => Plan.contains_of_schema (start.computed n reached)) done)
      (fun described reached derived =>
        described.note (described.factsFromInputs has owned scope arity reached derived)) start reached
      ensured
  have describe := described.notes id reached
  rw [note_eq noted] at describe
  refine ⟨fun v mention => ?_, describe.inhabited, Equivalence.disjoint_iff_pairwise.mp describe.disjoint⟩
  have inside := describe.within.mem mention
  obtain ⟨vs, stored⟩ := Option.isSome_iff_exists.mp (described.computed id reached)
  have stored := Plan.schema_ok_iff.mpr stored
  refine ⟨VarSet.mem_ofList.mp inside, ?_⟩
  rw [Plan.columns_of_schema stored]
  have same := described.stores id vs (described.regrouped.redrawn.reaches_iff.mpr reached) stored
  exact VarSet.mem_ofList.mp (same ▸ inside)

/-- In the nested plan of a subplan, a copy of the variable of the nested source gets into its class. -/
theorem facts_describe_columns_copied : ∃ s' facts,
    (sampleSession (.var 1)).facts 4 = .ok (s', facts) ∧
    facts.equivalence.classes = [⟨.ofList [1, 2], none⟩] ∧
    (∀ v, facts.Mentions v → v ∈ [1, 2] ∧ v ∈ s'.plan.columns 4) := by
  have valid : (sampleSession (.var 1)).plan.validate false = .ok () := by decide +kernel
  have reached : (sampleSession (.var 1)).plan.Reaches 4 := .tail .refl (by decide)
  have described := facts_describe_columns valid sample_relational.current sample_relational.owned
    (fun n reached => by
      have member := sample_reaches reached
      fin_cases member <;> rfl) rfl reached rfl
  exact ⟨_, _, rfl, rfl, described.1⟩

end Session

end QueryOptimizer
