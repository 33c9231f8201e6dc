import Mathlib
import QueryOptimizer.Proofs.Derivation.Found

/-! # Types that are found on a plan

Types are derived like facts, but leave the plan as it is. A regrouped plan has the same types, as long
as no group-by gives two entries one name.
-/

namespace QueryOptimizer

/-! ## Environments -/

namespace TypeEnv

variable {v w : Var} {type other : DataType}

theorem insertEntry_comm (different : v ≠ w) (entries : List (Var × DataType)) :
    insertEntry v type (insertEntry w other entries) = insertEntry w other (insertEntry v type entries) := by
  induction entries with
  | nil =>
    simp only [insertEntry]
    rcases Nat.lt_or_gt_of_ne different with less | greater
    · simp [less, Nat.lt_asymm less, different.symm]
    · simp [greater, Nat.lt_asymm greater, different]
  | cons entry entries ih =>
    obtain ⟨u, t⟩ := entry
    simp only [insertEntry]
    grind [insertEntry]

theorem insertAll_perm {entries entries' : List (Var × DataType)} (perm : entries.Perm entries')
    (apart : (entries.map (·.1)).Nodup) (env : TypeEnv) : env.insertAll entries = env.insertAll entries' := by
  refine perm.foldl_eq' (fun x inX y inY z => ?_) env
  by_cases same : x.1 = y.1
  · rw [List.inj_on_of_nodup_map apart inX inY same]
  · exact congrArg TypeEnv.mk (insertEntry_comm (Ne.symm same) z.entries)

end TypeEnv

theorem mapM_perm {ε α β : Type} {f : α → Except ε β} {l l' : List α} (perm : l.Perm l') {bs : List β}
    (done : l.mapM f = .ok bs) : ∃ bs', l'.mapM f = .ok bs' ∧ bs.Perm bs' := by
  obtain ⟨bs', each, same⟩ := List.perm_comp_forall₂ perm.symm (mapM_ok_iff_forall₂.mp done)
  exact ⟨bs', mapM_ok_iff_forall₂.mpr each, same.symm⟩

namespace Plan

variable {plan plan' : Plan} {catalog : Catalog} {n : NodeId}

/-- Whether no group-by gives two entries one name. -/
def GroupsApart (plan : Plan) : Prop := ∀ n, plan.Reaches n → (plan.operator n).groupOutputs.Nodup

/-- The environments of some nodes, one after the other. -/
def environment (notes : NodeId → TypeEnv) (ids : List NodeId) : TypeEnv :=
  (ids.map notes).foldl TypeEnv.extend {}

/-- Whether the types of a node follow from those of its inputs and nested plans. -/
def TypesFollow (plan : Plan) (catalog : Catalog) (n : NodeId) (notes : NodeId → TypeEnv)
    (env : TypeEnv) : Prop :=
  ∃ produced, Session.producedTypes catalog (environment notes (plan.tupleSources n)) (plan.operator n) =
      .ok produced ∧
    env = ((environment notes (plan.tupleSources n)).extend
      (environment notes (plan.nestedRoots n))).insertAll produced

/-- The types of the variables of a node. -/
def HasTypes (plan : Plan) (catalog : Catalog) : NodeId → TypeEnv → Prop :=
  Grounded plan.typeSources (plan.TypesFollow catalog)

theorem environment_congr {notes notes' : NodeId → TypeEnv} {ids : List NodeId}
    (same : ∀ c ∈ ids, notes c = notes' c) : environment notes ids = environment notes' ids := by
  unfold environment
  rw [List.map_congr_left same]

theorem HasTypes.unique {env env' : TypeEnv} (first : plan.HasTypes catalog n env)
    (second : plan.HasTypes catalog n env') : env = env' := by
  refine Grounded.unique (fun {n notes notes' _ _} same follow follow' => ?_) first second
  obtain ⟨produced, typed, rfl⟩ := follow
  obtain ⟨produced', typed', rfl⟩ := follow'
  rw [environment_congr fun c member => same c (List.mem_append_left _ member)] at typed ⊢
  cases typed.symm.trans typed'
  rw [environment_congr fun c member => same c (List.mem_append_right _ member)]

theorem reaches_typeSource (wellFormed : plan.WellFormed) (reached : plan.Reaches n) :
    ∀ c ∈ plan.typeSources n, plan.Reaches c :=
  fun _ member => wellFormed.reaches_source reached (mem_sources_of_typeSource member)

theorem names_assignedTypes {env : TypeEnv} {assignments : List (Var × Expr)}
    {produced : List (Var × DataType)} (typed : Session.assignedTypes env assignments = .ok produced) :
    produced.map (·.1) = assignments.map (·.1) := by
  have each := mapM_ok_iff_forall₂.mp typed
  clear typed
  induction each with
  | nil => rfl
  | cons first _ ih =>
    obtain ⟨type, _, first⟩ := bind_ok_iff.mp first
    cases pure_ok_iff.mp first
    rw [List.map_cons, List.map_cons, ih]

theorem producedTypes_regroups {env : TypeEnv} {op op' : Operator} {produced : List (Var × DataType)}
    (regroups : op.Regroups op') (apart : op.groupOutputs.Nodup)
    (typed : Session.producedTypes catalog env op = .ok produced) :
    ∃ produced', Session.producedTypes catalog env op' = .ok produced' ∧
      ∀ env : TypeEnv, env.insertAll produced = env.insertAll produced' := by
  cases regroups with
  | same => exact ⟨produced, typed, fun _ => rfl⟩
  | @groupBy keys decor keys' decor' nested entries =>
    obtain ⟨produced', typed', perm⟩ := mapM_perm entries.symm typed
    refine ⟨produced', typed', TypeEnv.insertAll_perm perm ?_⟩
    rw [names_assignedTypes typed]
    exact apart

/-- Which entries of a group-by are keys makes no difference to types. -/
theorem HasTypes.regrouped {env : TypeEnv} (wellFormed : plan.WellFormed) (apart : plan.GroupsApart)
    (regrouped : plan.Regrouped plan') (reached : plan.Reaches n) (types : plan.HasTypes catalog n env) :
    plan'.HasTypes catalog n env := by
  refine Grounded.transfer plan.Reaches types reached (fun n => reaches_typeSource wellFormed)
    (fun n _ => ?_) fun {n notes env} reached _ follow => ?_
  · unfold typeSources
    rw [regrouped.tupleSources, regrouped.nestedRoots]
  · obtain ⟨produced, typed, rfl⟩ := follow
    obtain ⟨produced', typed', same⟩ :=
      producedTypes_regroups (regrouped.operator n) (apart n reached) typed
    unfold TypesFollow
    rw [regrouped.tupleSources, regrouped.nestedRoots]
    exact ⟨produced', typed', same _⟩

end Plan

namespace Session

variable {s s' : Session} {id : NodeId} {fuel : Nat}

section

variable {V A : Type} {Inv : Session → Prop}
  {infer : Session → NodeId → Except Failure (Session × V)} {ids : List NodeId} {a b : A}

/-- Values that are derived and noted for one node after the other can be read from the notes. -/
theorem foldlM_notes (get : Session → NodeId → Option V) (add : A → V → A) (other : V) (each : ∀ n ∈ ids, ∀ {s s' v}, Inv s → infer s n = .ok (s', v) →
      Inv s' ∧ (∀ m u, get s m = some u → get s' m = some u) ∧ get s' n = some v) (inv : Inv s)
    (done : ids.foldlM (fun (acc : Session × A) n => do
      let (s, v) ← infer acc.1 n
      return (s, add acc.2 v)) (s, a) = .ok (s', b)) :
    Inv s' ∧ (∀ m u, get s m = some u → get s' m = some u) ∧ (∀ n ∈ ids, ∃ v, get s' n = some v) ∧
      b = (ids.map fun n => (get s' n).getD other).foldl add a := by
  induction ids generalizing s a with
  | nil =>
    cases foldlM_nil_ok_iff.mp done
    exact ⟨inv, fun _ _ known => known, by simp, rfl⟩
  | cons id ids ih =>
    obtain ⟨acc, first, done⟩ := foldlM_cons_ok_iff.mp done
    obtain ⟨⟨s₁, v⟩, inferred, first⟩ := bind_ok_iff.mp first
    cases pure_ok_iff.mp first
    obtain ⟨inv₁, kept₁, noted⟩ := each id List.mem_cons_self inv inferred
    obtain ⟨inv₂, kept₂, known, rfl⟩ := ih (fun n member => each n (List.mem_cons_of_mem _ member))
      inv₁ done
    have noted := kept₂ id v noted
    refine ⟨inv₂, fun m u known => kept₂ m u (kept₁ m u known), fun n member => ?_, ?_⟩
    · rcases List.mem_cons.mp member with rfl | member
      · exact ⟨v, noted⟩
      · exact known n member
    · rw [List.map_cons, List.foldl_cons, noted]
      rfl

/-- Values can be derived for one node after the other, if they can for each. -/
theorem exists_foldlM_notes
    (infer : Session → NodeId → Except Failure (Session × V)) (add : A → V → A)
    (each : ∀ n ∈ ids, ∀ {s}, Inv s → ∃ s' v, infer s n = .ok (s', v) ∧ Inv s')
    (inv : Inv s) (a : A) : ∃ s' b, ids.foldlM (fun (acc : Session × A) n => do
      let (s, v) ← infer acc.1 n
      return (s, add acc.2 v)) (s, a) = .ok (s', b) ∧ Inv s' := by
  induction ids generalizing s a with
  | nil => exact ⟨s, a, rfl, inv⟩
  | cons id ids ih =>
    obtain ⟨s₁, v, inferred, inv₁⟩ := each id List.mem_cons_self inv
    obtain ⟨s', b, rest, inv'⟩ := ih (fun n member => each n (List.mem_cons_of_mem _ member)) inv₁
      (add a v)
    exact ⟨s', b, foldlM_cons_ok_iff.mpr ⟨(s₁, add a v),
      bind_ok_iff.mpr ⟨(s₁, v), inferred, rfl⟩, rest⟩, inv'⟩

end

/-! ## Types -/

/-- Whether the noted types are found on the plan. -/
def TypesFound (s : Session) : Prop := ∀ n env, s.plan.Reaches n →
  s.context.types.get? n = some env → s.plan.HasTypes s.context.catalog n env

/-- A session that differs in notes about types, all of which are found on the plan. -/
structure Retypes (s t : Session) : Prop where
  plan : t.plan = s.plan
  catalog : t.context.catalog = s.context.catalog
  found : t.TypesFound
  noted : ∀ n env, t.context.types.get? n = some env →
    s.context.types.get? n = some env ∨ s.plan.Reaches n

theorem Retypes.refl (found : s.TypesFound) : s.Retypes s := ⟨rfl, rfl, found, fun _ _ noted => .inl noted⟩

theorem Retypes.trans {t : Session} (first : s.Retypes t) (second : t.Retypes s') : s.Retypes s' where
  plan := second.plan.trans first.plan
  catalog := second.catalog.trans first.catalog
  found := second.found
  noted n env noted := by
    rcases second.noted n env noted with earlier | reached
    · exact first.noted n env earlier
    · exact .inr (first.plan ▸ reached)

/-- The types of a node, or no types. -/
def typesAt (s : Session) (n : NodeId) : TypeEnv := (s.context.types.get? n).getD {}

/-- Inference notes what is found on the plan. -/
theorem TypesFound.typesWithin {env : TypeEnv} (found : s.TypesFound)
    (closed : ∀ n, s.plan.Reaches n → ∀ c ∈ s.plan.typeSources n, s.plan.Reaches c)
    (reached : s.plan.Reaches id) (done : Session.typesWithin fuel s id = .ok (s', env)) :
    s.Retypes s' ∧ (∀ m u, s.context.types.get? m = some u → s'.context.types.get? m = some u) ∧
      s'.context.types.get? id = some env := by
  induction fuel generalizing s s' id env with
  | zero => cases done
  | succ fuel ih =>
    rcases typesWithin_cases done with ⟨known, rfl⟩ |
      ⟨s₁, s₂, outer, inner, produced, _, _, inputs, nested, typed, rfl, rfl⟩
    · exact ⟨.refl found, fun _ _ known => known, known⟩
    have each : ∀ n ∈ s.plan.typeSources id, ∀ {t t' v}, s.Retypes t →
        Session.typesWithin fuel t n = .ok (t', v) → s.Retypes t' ∧
          (∀ m u, t.context.types.get? m = some u → t'.context.types.get? m = some u) ∧
          t'.context.types.get? n = some v := by
      intro n member t t' v retypes inferred
      obtain ⟨later, kept, noted⟩ := ih retypes.found (retypes.plan ▸ closed)
        (retypes.plan ▸ closed id reached n member) inferred
      exact ⟨retypes.trans later, kept, noted⟩
    obtain ⟨retypes₁, kept₁, known₁, fromInputs⟩ := foldlM_notes (fun s => s.context.types.get?) _
      {} (fun n member => each n (List.mem_append_left _ member)) (.refl found) inputs
    obtain ⟨⟨plan, catalog, found₂, noted₂⟩, kept₂, known₂, fromNested⟩ :=
      foldlM_notes (fun s => s.context.types.get?) _ {} (fun n member => each n
        (List.mem_append_right _ (retypes₁.plan ▸ member))) retypes₁ nested
    have outerNotes : outer = Plan.environment s₂.typesAt (s.plan.tupleSources id) := by
      refine fromInputs.trans (Plan.environment_congr fun c member => ?_)
      obtain ⟨env, noted⟩ := known₁ c member
      unfold typesAt
      rw [noted, kept₂ c env noted]
    have innerNotes : inner = Plan.environment s₂.typesAt (s.plan.nestedRoots id) :=
      retypes₁.plan ▸ fromNested
    have types : s₂.plan.HasTypes s₂.context.catalog id ((outer.extend inner).insertAll produced) := by
      rw [plan]
      refine @Grounded.node _ _ _ _ s₂.typesAt _ (fun c member => ?_) ⟨produced, ?_, ?_⟩
      · obtain ⟨env, noted⟩ : ∃ env, s₂.context.types.get? c = some env := by
          rcases List.mem_append.mp member with source | isRoot
          · obtain ⟨env, noted⟩ := known₁ c source
            exact ⟨env, kept₂ c env noted⟩
          · exact known₂ c (retypes₁.plan ▸ isRoot)
        have here : s₂.typesAt c = env := by
          unfold typesAt
          rw [noted]
          rfl
        rw [here, ← plan]
        exact found₂ c env (plan ▸ closed id reached c member) noted
      · rw [← outerNotes, ← plan]
        exact typed
      · rw [outerNotes, innerNotes]
    obtain ⟨found', kept, noted⟩ :=
      NodeTable.insert_found found₂ (plan ▸ reached) types fun other => other.unique types
    refine ⟨⟨plan, catalog, found', fun n env noted => ?_⟩,
      fun m env noted => kept m env (kept₂ m env (kept₁ m env noted)), noted⟩
    rcases NodeTable.get?_insert_cases noted with ⟨rfl, _⟩ | before
    · exact .inr reached
    · exact noted₂ n env before

theorem typesWithin_of {s₁ s₂ : Session} {outer inner : TypeEnv} (produced : List (Var × DataType))
    (unknown : s.context.types.get? id = none)
    (fed : ∀ owner, s.plan.operator id = .nestedSource owner → ∃ input, (s.plan.inputs owner)[0]? = some input)
    (inputs : collectTypes (Session.typesWithin fuel) s (s.plan.tupleSources id) = .ok (s₁, outer))
    (nested : collectTypes (Session.typesWithin fuel) s₁ (s₁.plan.nestedRoots id) = .ok (s₂, inner))
    (typed : producedTypes s₂.context.catalog outer (s₂.plan.operator id) = .ok produced) :
    ∃ s' env, Session.typesWithin (fuel + 1) s id = .ok (s', env) := by
  unfold Session.typesWithin
  rw [unknown]
  dsimp only
  split
  · rename_i owner operator
    obtain ⟨input, found⟩ := fed owner operator
    rw [Plan.tupleSources_nestedSource operator, found] at inputs
    exact ⟨_, _, bind_ok_iff.mpr ⟨input, Plan.input_ok_iff.mpr found, bind_ok_iff.mpr ⟨[input], rfl,
      bind_ok_iff.mpr ⟨(s₁, outer), inputs, bind_ok_iff.mpr ⟨(s₂, inner), nested,
        bind_ok_iff.mpr ⟨produced, typed, rfl⟩⟩⟩⟩⟩⟩
  · rename_i other
    rw [Plan.tupleSources_eq_inputs fun owner operator => other owner operator] at inputs
    exact ⟨_, _, bind_ok_iff.mpr ⟨s.plan.inputs id, rfl, bind_ok_iff.mpr ⟨(s₁, outer), inputs,
      bind_ok_iff.mpr ⟨(s₂, inner), nested, bind_ok_iff.mpr ⟨produced, typed, rfl⟩⟩⟩⟩⟩

theorem Retypes.typesWithin {t t' : Session} {n : NodeId} {env : TypeEnv} (retypes : s.Retypes t)
    (wellFormed : s.plan.WellFormed) (reached : s.plan.Reaches n)
    (done : Session.typesWithin fuel t n = .ok (t', env)) : s.Retypes t' ∧
      (∀ m u, t.context.types.get? m = some u → t'.context.types.get? m = some u) ∧
      t'.context.types.get? n = some env := by
  obtain ⟨later, kept, noted⟩ := retypes.found.typesWithin
    (retypes.plan ▸ fun _ => Plan.reaches_typeSource wellFormed) (retypes.plan ▸ reached) done
  exact ⟨retypes.trans later, kept, noted⟩

/-- Types that are found on a plan are inferred there. -/
theorem TypesFound.exists_typesWithin {env : TypeEnv} {rank : NodeId → Nat} (found : s.TypesFound)
    (wellFormed : s.plan.WellFormed) (falls : s.plan.RankedBy rank) (reached : s.plan.Reaches id)
    (types : s.plan.HasTypes s.context.catalog id env) (enough : rank id < fuel) :
    ∃ s', Session.typesWithin fuel s id = .ok (s', env) := by
  suffices ∃ s' env', Session.typesWithin fuel s id = .ok (s', env') by
    obtain ⟨s', env', done⟩ := this
    obtain ⟨retypes, _, noted⟩ :=
      found.typesWithin (fun _ => Plan.reaches_typeSource wellFormed) reached done
    obtain ⟨table, rfl⟩ := typesWithin_frame done
    rw [types.unique (retypes.found id env' reached noted)]
    exact ⟨_, done⟩
  induction fuel generalizing s id env with
  | zero => omega
  | succ fuel ih =>
    cases unknown : s.context.types.get? id with
    | some known =>
      unfold Session.typesWithin
      rw [unknown]
      exact ⟨s, known, rfl⟩
    | none =>
    cases types with
    | @node _ notes _ sources follow =>
      obtain ⟨produced, typed, rfl⟩ := follow
      have each : ∀ n ∈ s.plan.typeSources id, ∀ {t}, s.Retypes t →
          ∃ t' v, Session.typesWithin fuel t n = .ok (t', v) ∧ s.Retypes t' := by
        intro n member t retypes
        have reached' := Plan.reaches_typeSource wellFormed reached n member
        have lower := falls id reached n (Plan.mem_sources_of_typeSource member)
        have plan := retypes.plan
        obtain ⟨t', v, done⟩ := ih (s := t) retypes.found (plan ▸ wellFormed) (plan ▸ falls)
          (plan ▸ reached') (by rw [plan, retypes.catalog]; exact sources n member) (by omega)
        exact ⟨t', v, done, (retypes.typesWithin wellFormed reached' done).1⟩
      have start : s.Retypes s := .refl found
      obtain ⟨s₁, outer, inputs, retypes₁⟩ := exists_foldlM_notes _ TypeEnv.extend
        (fun n member => each n (List.mem_append_left _ member)) start {}
      obtain ⟨s₂, inner, nested, retypes₂⟩ := exists_foldlM_notes _ TypeEnv.extend
        (fun n (member : n ∈ s₁.plan.nestedRoots id) => each n (List.mem_append_right _ (retypes₁.plan ▸ member))) retypes₁ {}
      refine typesWithin_of produced unknown (fun owner => wellFormed.exists_source reached) inputs nested ?_
      obtain ⟨_, _, known, rfl⟩ := foldlM_notes (fun s => s.context.types.get?) _ {}
        (fun n member {_ _ _} retypes done => Retypes.typesWithin retypes wellFormed
          (Plan.reaches_typeSource wellFormed reached n (List.mem_append_left _ member)) done)
        start inputs
      rw [retypes₂.plan, retypes₂.catalog]
      have same : Plan.environment s₁.typesAt (s.plan.tupleSources id) =
          Plan.environment notes (s.plan.tupleSources id) := by
        refine Plan.environment_congr fun c member => ?_
        obtain ⟨env, noted⟩ := known c member
        have source := List.mem_append_left (s.plan.nestedRoots id) member
        have types := retypes₁.found c env
          (retypes₁.plan ▸ Plan.reaches_typeSource wellFormed reached c source) noted
        rw [retypes₁.plan, retypes₁.catalog] at types
        unfold typesAt
        rw [noted, types.unique (sources c source)]
        rfl
      exact (congrArg (producedTypes _ · _) same).trans typed

end Session

end QueryOptimizer
