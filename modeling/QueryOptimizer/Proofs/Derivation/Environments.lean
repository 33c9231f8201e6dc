import Mathlib
import QueryOptimizer.Proofs.Derivation.Typed
import QueryOptimizer.Proofs.Plan.Producers
import QueryOptimizer.Proofs.Relational.Scope
import QueryOptimizer.Proofs.Relational.Simplified

/-! # Types of all columns

The types of a node are those of the nodes that it comes from, and those of what it produces. So all
its columns have a type, and each entry was made by a node that produces the variable. If there is one
such node only, then the variable has the same type everywhere.
-/

namespace QueryOptimizer

/-! ## Entries of environments -/

namespace TypeEnv

variable {env : TypeEnv} {v w : Var} {type : DataType} {entry : Var × DataType}
  {entries : List (Var × DataType)}

/-- The variables that have a type. -/
def names (env : TypeEnv) : List Var := env.entries.map (·.1)

theorem mem_of_get? (typed : env.get? v = some type) : (v, type) ∈ env.entries := by
  obtain ⟨before, after, same, _⟩ := List.lookup_eq_some_iff.mp typed
  rw [same]
  exact List.mem_append_right _ List.mem_cons_self

theorem exists_get? (member : v ∈ env.names) : ∃ type, env.get? v = some type := by
  refine Option.ne_none_iff_exists'.mp fun missing => ?_
  obtain ⟨entry, inside, rfl⟩ := List.mem_map.mp member
  simpa using List.lookup_eq_none_iff.mp missing entry inside

theorem mem_insertEntry (member : entry ∈ insertEntry v type entries) :
    entry = (v, type) ∨ entry ∈ entries := by
  induction entries with
  | nil => exact .inl (List.mem_singleton.mp member)
  | cons first rest ih => grind [insertEntry]

theorem names_insertEntry (named : w = v ∨ w ∈ entries.map (·.1)) :
    w ∈ (insertEntry v type entries).map (·.1) := by
  induction entries with
  | nil => simpa [insertEntry] using named
  | cons first rest ih => grind [insertEntry]

/-- What is inserted is new or was there before. -/
theorem mem_insertAll (member : entry ∈ (env.insertAll entries).entries) :
    entry ∈ entries ∨ entry ∈ env.entries := by
  induction entries generalizing env with
  | nil => exact .inr member
  | cons first rest ih =>
    rcases ih member with later | inside
    · exact .inl (List.mem_cons_of_mem _ later)
    · rcases mem_insertEntry inside with rfl | before
      · exact .inl List.mem_cons_self
      · exact .inr before

theorem names_insertAll (named : v ∈ entries.map (·.1) ∨ v ∈ env.names) :
    v ∈ (env.insertAll entries).names := by
  induction entries generalizing env with
  | nil => exact named.resolve_left List.not_mem_nil
  | cons first rest ih =>
    refine ih ?_
    rw [List.map_cons, List.mem_cons, or_right_comm] at named
    exact named.symm.imp_right names_insertEntry

end TypeEnv

/-- An operator types what it produces. -/
theorem Operator.names_producedTypes {op : Operator} {catalog : Catalog} {env : TypeEnv}
    {entries : List (Var × DataType)} (matched : op.Matched)
    (typed : Session.producedTypes catalog env op = .ok entries) : entries.map (·.1) = op.produced := by
  cases op with
  | scan name vars =>
    obtain ⟨source, _, typed⟩ := bind_ok_iff.mp typed
    obtain ⟨_, checked, typed⟩ := bind_ok_iff.mp typed
    cases pure_ok_iff.mp typed
    unfold Source.checkArity at checked
    split at checked
    · rename_i same
      exact List.map_fst_zip (by rw [List.length_map, same])
    · cases checked
  | assign | aggregate | runningAggregate =>
    rw [Plan.names_assignedTypes typed]
    exact List.map_fst_zip (le_of_eq matched)
  | groupBy => exact Plan.names_assignedTypes typed
  | unnest v e position =>
    obtain ⟨item, _, typed⟩ := bind_ok_iff.mp typed
    cases pure_ok_iff.mp typed
    exact congrArg (v :: ·) ((List.map_map ..).trans (List.map_id _))
  | unionAll columns =>
    have each := mapM_ok_iff_forall₂.mp typed
    clear typed matched
    change entries.map (·.1) = columns.map (·.output)
    induction each with
    | nil => rfl
    | cons first _ ih =>
      rw [List.map_cons, List.map_cons, ih]
      split at first
      · cases first
        rfl
      · cases first
  | script =>
    cases typed
    exact (List.map_map ..).trans (List.map_id _)
  | emptySource | nestedSource | select | project | join | distinct | order | limit | subplan | exchange
  | replicate | write | insertDelete | sink => cases typed; rfl

/-! ## Types on a plan -/

namespace Plan

variable {plan : Plan} {catalog : Catalog} {n : NodeId} {env : TypeEnv} {notes : NodeId → TypeEnv}
  {ids : List NodeId} {v : Var} {type type' : DataType} {entry : Var × DataType}

theorem mem_environment (member : entry ∈ (environment notes ids).entries) :
    ∃ c ∈ ids, entry ∈ (notes c).entries := by
  induction ids using List.reverseRecOn with
  | nil => cases member
  | append_singleton ids id ih =>
    unfold environment at member ih
    rw [List.map_append, List.foldl_append] at member
    rcases TypeEnv.mem_insertAll member with last | earlier
    · exact ⟨id, by simp, last⟩
    · obtain ⟨c, isBefore, inside⟩ := ih earlier
      exact ⟨c, List.mem_append_left _ isBefore, inside⟩

theorem names_environment {c : NodeId} (listed : c ∈ ids) (named : v ∈ (notes c).names) :
    v ∈ (environment notes ids).names := by
  induction ids using List.reverseRecOn with
  | nil => cases listed
  | append_singleton ids id ih =>
    unfold environment at ih ⊢
    rw [List.map_append, List.foldl_append]
    refine TypeEnv.names_insertAll ?_
    rcases List.mem_append.mp listed with earlier | last
    · exact .inr (ih earlier)
    · rw [List.mem_singleton.mp last] at named
      exact .inl named

theorem OwnersReachable.reaches_typeSource (owned : plan.OwnersReachable) (reached : plan.Reaches n) :
    ∀ c ∈ plan.typeSources n, plan.Reaches c :=
  fun _ member => owned.reaches_source reached (mem_sources_of_typeSource member)

/-- Whether a reachable node produces a variable of some type. -/
def Assigns (plan : Plan) (catalog : Catalog) (entry : Var × DataType) : Prop :=
  ∃ n notes entries, plan.Reaches n ∧ (∀ c ∈ plan.typeSources n, plan.HasTypes catalog c (notes c)) ∧
    Session.producedTypes catalog (environment notes (plan.tupleSources n)) (plan.operator n) =
      .ok entries ∧ entry ∈ entries

/-- Each type was given to its variable by a node that produces it. -/
theorem HasTypes.assigned (owned : plan.OwnersReachable) (types : plan.HasTypes catalog n env)
    (reached : plan.Reaches n) (member : entry ∈ env.entries) : plan.Assigns catalog entry := by
  induction types with
  | @node n notes env found follow ih =>
    have below : ∀ c ∈ plan.typeSources n, entry ∈ (notes c).entries → plan.Assigns catalog entry :=
      fun c source => ih c source (owned.reaches_typeSource reached c source)
    obtain ⟨entries, typed, rfl⟩ := follow
    rcases TypeEnv.mem_insertAll member with here | member
    · exact ⟨n, notes, entries, reached, found, typed, here⟩
    rcases TypeEnv.mem_insertAll member with inner | outer
    · obtain ⟨c, isRoot, inside⟩ := mem_environment inner
      exact below c (List.mem_append_right _ isRoot) inside
    · obtain ⟨c, source, inside⟩ := mem_environment outer
      exact below c (List.mem_append_left _ source) inside

section Matched

variable (matched : ∀ n, plan.Reaches n → (plan.operator n).Matched)

include matched

/-- A variable that is produced once is produced with one type. -/
theorem Assigns.unique (once : plan.ProducedOnce) (first : plan.Assigns catalog (v, type))
    (second : plan.Assigns catalog (v, type')) : type = type' := by
  obtain ⟨n, notes, entries, reached, found, typed, member⟩ := first
  obtain ⟨n', notes', entries', reached', found', typed', member'⟩ := second
  have names := Operator.names_producedTypes (matched n reached) typed
  have produced : v ∈ (plan.operator n).produced := names ▸ List.mem_map_of_mem member
  have produced' : v ∈ (plan.operator n').produced :=
    Operator.names_producedTypes (matched n' reached') typed' ▸ List.mem_map_of_mem member'
  obtain rfl := once.unique reached reached' produced produced'
  have same : environment notes (plan.tupleSources n) = environment notes' (plan.tupleSources n) :=
    environment_congr fun c source =>
      (found c (List.mem_append_left _ source)).unique (found' c (List.mem_append_left _ source))
  rw [same] at typed
  cases typed.symm.trans typed'
  have apart : (entries.map (·.1)).Nodup := names ▸ once.nodup reached
  exact congrArg (·.2) (List.inj_on_of_nodup_map apart member member' rfl)

/-- All columns of a node have types. -/
theorem HasTypes.covers (current : plan.SchemasCurrent) (scope : plan.InScope)
    (owned : plan.OwnersReachable) (types : plan.HasTypes catalog n env) (reached : plan.Reaches n)
    (member : v ∈ plan.columns n) : v ∈ env.names := by
  induction types with
  | @node n notes env found follow ih =>
    obtain ⟨entries, typed, rfl⟩ := follow
    refine TypeEnv.names_insertAll ?_
    rcases produced_or_source current scope reached member with here | ⟨c, source, inside⟩
    · rw [← Operator.names_producedTypes (matched n reached) typed] at here
      exact .inl here
    · have named := ih c source (owned.reaches_typeSource reached c source) inside
      refine .inr (TypeEnv.names_insertAll ?_)
      rcases List.mem_append.mp source with isTuples | isRoot
      · exact .inr (names_environment isTuples named)
      · exact .inl (names_environment isRoot named)

end Matched

end Plan

namespace Session

variable {s s' : Session} {env : TypeEnv}

/-- Inference at the root of a valid plan gives types to all columns of the nodes that it visits, and
    gives a column the same type wherever it occurs. -/
theorem types_cover_columns (valid : s.plan.validate false = .ok ()) (current : s.plan.SchemasCurrent)
    (owned : s.plan.OwnersReachable) (once : s.plan.ProducedOnce)
    (matched : ∀ n, s.plan.Reaches n → (s.plan.operator n).Matched) (new : s.context.types = {})
    (done : s.types s.plan.root = .ok (s', env)) :
    (∀ n env, s'.context.types.get? n = some env →
      ∀ v ∈ s.plan.columns n, ∃ type, env.get? v = some type) ∧
    ∀ n n' env env', s'.context.types.get? n = some env → s'.context.types.get? n' = some env' →
      ∀ v, v ∈ s.plan.columns n → v ∈ s.plan.columns n' → env.get? v = env'.get? v := by
  have nothing : ∀ n env, s.context.types.get? n ≠ some env := by
    intro n env noted
    rw [new] at noted
    cases noted
  have start : s.TypesFound := fun n env _ noted => absurd noted (nothing n env)
  obtain ⟨retypes, _⟩ := start.typesWithin (fun _ => owned.reaches_typeSource) .refl done
  have visited : ∀ {n env}, s'.context.types.get? n = some env →
      s.plan.Reaches n ∧ s.plan.HasTypes s.context.catalog n env := by
    intro n env noted
    have reached := (retypes.noted n env noted).resolve_left (nothing n env)
    have types := retypes.found n env (retypes.plan ▸ reached) noted
    rw [retypes.plan, retypes.catalog] at types
    exact ⟨reached, types⟩
  have covered : ∀ n env, s'.context.types.get? n = some env →
      ∀ v ∈ s.plan.columns n, ∃ type, env.get? v = some type := by
    intro n env noted v member
    obtain ⟨reached, types⟩ := visited noted
    exact TypeEnv.exists_get? (types.covers matched current (Plan.inScope_of_validate valid) owned reached
      member)
  refine ⟨covered, fun n n' env env' noted noted' v member member' => ?_⟩
  obtain ⟨type, typed⟩ := covered n env noted v member
  obtain ⟨type', typed'⟩ := covered n' env' noted' v member'
  obtain ⟨reached, types⟩ := visited noted
  obtain ⟨reached', types'⟩ := visited noted'
  have first := types.assigned owned reached (TypeEnv.mem_of_get? typed)
  have second := types'.assigned owned reached' (TypeEnv.mem_of_get? typed')
  rw [typed, typed', first.unique matched once second]

/-- Groups of a union of two columns of booleans. -/
def groupedSession : Session where
  plan := .groupedUnion 1 2
  context := { catalog := ⟨[{ name := "A", columns := [("a", .boolean)] },
    { name := "B", columns := [("b", .boolean)] }]⟩ }

/-- The groups are keyed by a column of the union, which is seen from inside of the nested plan too. -/
theorem types_cover_columns_grouped : ∃ s' env nested, groupedSession.types 6 = .ok (s', env) ∧
    s'.context.types.get? 4 = some nested ∧ (∀ v ∈ [5, 4], ∃ type, env.get? v = some type) ∧
    ∃ union, s'.context.types.get? 3 = some union ∧ nested.get? 3 = union.get? 3 := by
  have valid : groupedSession.plan.validate false = .ok () := by decide +kernel
  have owned : groupedSession.plan.OwnersReachable := by
    intro n owner reached operator
    have member := Plan.mem_of_reaches_groupedUnion reached
    fin_cases member <;> cases operator
    exact .refl
  have once : groupedSession.plan.ProducedOnce := by decide +kernel
  obtain ⟨covered, same⟩ := types_cover_columns valid Plan.groupedUnion_current owned once
    (fun n => Plan.groupedUnion_matched) rfl rfl
  exact ⟨_, _, _, rfl, rfl, covered 6 _ rfl, _, rfl,
    same 4 3 _ _ rfl rfl 3 List.mem_cons_self List.mem_cons_self⟩

end Session

end QueryOptimizer
