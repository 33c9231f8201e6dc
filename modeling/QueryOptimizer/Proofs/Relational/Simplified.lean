import Mathlib
import QueryOptimizer.Proofs.Derivation.Facts
import QueryOptimizer.Proofs.Facts.Keys
import QueryOptimizer.Proofs.Operator.Schema
import QueryOptimizer.Proofs.Plan.Columns
import QueryOptimizer.Proofs.Relational.Grouping

/-! # Simplified group-bys

Deriving facts moves keys of group-bys to their decorations. The plan stays the same otherwise:
its nodes have the same children and, up to order, the same columns.
-/

namespace QueryOptimizer

namespace Plan

variable {original plan plan' : Plan} {I : Interpretation} {id n : NodeId}

/-- Whether a plan is another one in which some group-bys were simplified. Schemas that are
    computed have the columns of the original. -/
structure Follows (I : Interpretation) (original plan : Plan) : Prop where
  inputs : ∀ n, plan.inputs n = original.inputs n
  regroups : ∀ n, (original.operator n).Regroups (plan.operator n)
  keys : ∀ n keys decor nested, original.Reaches n → plan.operator n = .groupBy keys decor nested →
    original.IsKey I n (keys.map (·.1))
  schemas : ∀ n vs, original.Reaches n → (plan.node n).schema = some vs →
    SameVars vs (original.columns n)

/-- Computed schemas have the columns of the original. -/
theorem Follows.refreshSchemas (follows : original.Follows I plan) (regrouped : original.Regrouped plan)
    (current : original.SchemasCurrent) (owned : original.OwnersReachable)
    (refreshed : plan.refreshSchemas = .ok plan') : original.Follows I plan' := by
  have only := refreshSchemas_only refreshed
  have regrouped' := regrouped.trans only.regrouped
  have stores : plan.Stores fun n => .ofList (original.columns n) := fun n vs reached stored =>
    ofList_eq_of_sameVars (follows.schemas n vs (regrouped.redrawn.reaches_iff.mp reached)
      (schema_ok_iff.mp stored))
  have stores' := stores.refreshSchemas (current.hasColumns.regrouped regrouped)
    (owned.regrouped regrouped) refreshed
  refine ⟨regrouped'.inputs, regrouped'.operator, fun n keys decor nested reached operator => ?_,
    fun n vs reached stored v => ?_⟩
  · rw [only.operator n] at operator
    exact follows.keys n keys decor nested reached operator
  · have same := stores' n vs (regrouped'.redrawn.reaches_iff.mpr reached) (schema_ok_iff.mpr stored)
    rw [← VarSet.mem_ofList, same, VarSet.mem_ofList]

section

variable {keys decor : List (Var × Expr)} {nested : NestedPlans} {facts : Facts} {input : NodeId}
  (follows : original.Follows I plan) (operator : plan.operator id = .groupBy keys decor nested)
  (source : (original.inputs id)[0]? = some input) (reached : original.Reaches id)
  (once : (original.operator id).produced.Nodup) (satisfied : original.Satisfies I input facts)

include follows operator source reached once satisfied

/-- The keys that stay when determined keys are moved still tell the tuples apart. -/
theorem Follows.isKey_splitKeys :
    original.IsKey I id ((facts.splitKeys [] keys).1.map (·.1)) := by
  intro frames ts invoked run o member o' member' agree
  have regroups := follows.regroups id
  rw [operator] at regroups
  obtain ⟨keys₀, decor₀, shape, entries⟩ := regroups.symm.of_groupBy
  rw [shape] at once
  obtain ⟨input', us, source', tuples, values, _⟩ := run.groupBy_spec shape once
  cases source.symm.trans source'
  obtain ⟨hold, _⟩ := satisfied frames us invoked tuples
  obtain ⟨t, ht, atT⟩ := values o member
  obtain ⟨t', ht', atT'⟩ := values o' member'
  have passes : ∀ (o t : Tuple) (entry : Var × Expr) (w : Var), entry.2.asVar? = some w →
      (∃ x, entry.2.Evaluates I t x ∧ o entry.1 = some x) → o entry.1 = t w := by
    rintro o t ⟨v, e⟩ w isVar ⟨x, value, atO⟩
    cases e with
    | var w' => cases isVar; exact atO.trans (Eq.symm value)
    | const => cases isVar
    | call => cases isVar
  have listed : ∀ entry ∈ [] ++ keys, entry ∈ keys₀ ++ decor₀ := fun entry inKeys =>
    entries.mem_iff.mpr (List.mem_append_left _ inKeys)
  have agreeKeys : ∀ entry ∈ [] ++ keys, o entry.1 = o' entry.1 := by
    refine Facts.forall_of_splitKeys (fun vs same => hold.closure ht ht' same)
      (fun entry inKeys w isVar => ?_) fun entry stays => agree entry.1 (List.mem_map_of_mem stays)
    rw [passes o t entry w isVar (atT entry (listed entry inKeys)),
      passes o' t' entry w isVar (atT' entry (listed entry inKeys))]
  refine follows.keys id keys decor nested reached operator frames ts invoked run o member o' member'
    fun v isKey => ?_
  obtain ⟨entry, inKeys, rfl⟩ := List.mem_map.mp isKey
  exact agreeKeys entry inKeys

/-- Moving determined keys to the decorations leads to a plan that follows the original. -/
theorem Follows.splitKeys :
    original.Follows I (plan.setOperator id (.groupBy (facts.splitKeys [] keys).1
      (decor ++ (facts.splitKeys [] keys).2) nested)) := by
  have isKey := follows.isKey_splitKeys operator source reached once satisfied
  have regroups : (original.operator id).Regroups (.groupBy (facts.splitKeys [] keys).1
      (decor ++ (facts.splitKeys [] keys).2) nested) := by
    have before := follows.regroups id
    rw [operator] at before
    exact before.trans (.groupBy nested (facts.perm_splitKeys_decor keys decor))
  have nodes := fun n => node_setOperator_cases plan id n
    (.groupBy (facts.splitKeys [] keys).1 (decor ++ (facts.splitKeys [] keys).2) nested)
  refine ⟨fun n => ?_, fun n => ?_, fun n keys' decor' nested' reached' operator' => ?_,
    fun n vs reached' stored => ?_⟩
  · rw [← follows.inputs n]
    exact inputs_modify fun _ => rfl
  · unfold Plan.operator
    rcases nodes n with same | ⟨rfl, changed⟩
    · rw [same]
      exact follows.regroups n
    · rw [changed]
      exact regroups
  · unfold Plan.operator at operator'
    rcases nodes n with same | ⟨rfl, changed⟩
    · rw [same] at operator'
      exact follows.keys n keys' decor' nested' reached' operator'
    · rw [changed] at operator'
      cases operator'
      exact isKey
  · rcases nodes n with same | ⟨rfl, changed⟩
    · rw [same] at stored
      exact follows.schemas n vs reached' stored
    · rw [changed] at stored
      cases stored

end

end Plan

/-! ## Groups

A group-by and its simplified form group the same tuples together.
-/

/-- Whether an expression has the same values in two tuples. -/
def Expr.SameIn (I : Interpretation) (t u : Tuple) (e : Expr) : Prop :=
  ∀ x, e.Evaluates I t x ↔ e.Evaluates I u x

theorem Expr.sameIn_iff {I : Interpretation} {t u : Tuple} {e : Expr} {v : Var}
    (isVar : e.asVar? = some v) : e.SameIn I t u ↔ t v = u v := by
  cases e with
  | var w =>
    cases isVar
    exact Option.ext_iff.symm
  | const value => cases isVar
  | call f args hints => cases isVar

section

variable {s s' : Session} {id : NodeId} {facts : Facts} {keys decor : List (Var × Expr)}
  {nested : NestedPlans} (shape : s.plan.operator id = .groupBy keys decor nested)
  (known : s.inputFacts id 0 = .ok facts)

include shape known

/-- A simplified group-by has the keys that stay, and the others follow its decorations. -/
theorem Session.operator_simplifyGroupBy (done : s.simplifyGroupBy id = .ok s') :
    s'.plan.operator id = .groupBy (facts.splitKeys [] keys).1
      (decor ++ (facts.splitKeys [] keys).2) nested ∧ s'.inputFacts id 0 = .ok facts := by
  rcases simplifyGroupBy_cases done with ⟨rfl, simplified⟩ |
    ⟨keys', decor', nested', facts', shape', known', _, done⟩
  · obtain ⟨facts', known', none⟩ := simplified keys decor nested shape
    cases known.symm.trans known'
    rw [Facts.splitKeys_of_none_moved none, none, List.append_nil]
    exact ⟨shape, known⟩
  · cases shape.symm.trans shape'
    cases known.symm.trans known'
    obtain ⟨plan, refreshed, rfl⟩ := refreshSchemas_ok done
    obtain ⟨input, found, noted⟩ := inputFacts_ok known
    have only := Plan.refreshSchemas_only refreshed
    have inputs : plan.inputs id = s.plan.inputs id :=
      (only.inputs id).trans (Plan.inputs_modify fun _ => rfl)
    refine ⟨(only.operator id).trans (Plan.operator_setOperator_self (Plan.contains_of_input found)),
      bind_ok_iff.mpr ⟨input, Plan.input_ok_iff.mpr ?_, knownFacts_ok_iff.mpr noted⟩⟩
    exact inputs ▸ found

theorem Session.simplifyGroupBy_of_none_moved (none : (facts.splitKeys [] keys).2 = []) :
    s.simplifyGroupBy id = .ok s := by
  unfold simplifyGroupBy
  rw [shape]
  refine bind_ok_iff.mpr ⟨facts, known, ?_⟩
  rw [← Prod.eta (facts.splitKeys [] keys), none]
  rfl

end

/-- Simplifying a group-by leaves a key if there was one. It only moves keys that are variables, behind
    the decorations. Where the facts hold, the remaining keys make the same groups as all keys did, and
    they stay when the group-by is simplified again. -/
theorem simplified_keys_make_same_groups (facts : Facts) (disjoint : facts.equivalence.Disjoint)
    (keys decor : List (Var × Expr)) : ∃ kept moved, facts.splitKeys [] keys = (kept, moved) ∧
      (keys ≠ [] → kept ≠ []) ∧
      (kept ++ (decor ++ moved)).Perm (keys ++ decor) ∧
      (∀ key ∈ keys, key.2.asVar? = none → key ∈ kept) ∧
      (∀ (I : Interpretation) (ts : List Tuple), facts.HoldIn ts → ∀ t ∈ ts, ∀ u ∈ ts,
        ((∀ key ∈ kept, key.2.SameIn I t u) ↔ ∀ key ∈ keys, key.2.SameIn I t u)) ∧
      (facts.splitKeys [] kept).2 = [] ∧
      ∀ (s s' : Session) (id : NodeId) (nested : NestedPlans),
        s.plan.operator id = .groupBy keys decor nested → s.inputFacts id 0 = .ok facts →
        s.simplifyGroupBy id = .ok s' →
          s'.plan.operator id = .groupBy kept (decor ++ moved) nested ∧
          s'.simplifyGroupBy id = .ok s' := by
  have again := Facts.splitKeys_again disjoint keys
  have perm : ((facts.splitKeys [] keys).1 ++ (facts.splitKeys [] keys).2).Perm ([] ++ keys) :=
    facts.perm_splitKeys
  have split : ∀ key, key ∈ keys ↔ key ∈ (facts.splitKeys [] keys).1 ∨ key ∈ (facts.splitKeys [] keys).2 :=
    fun key => perm.mem_iff.symm.trans List.mem_append
  refine ⟨_, _, rfl, fun some => ?_, facts.perm_splitKeys_decor keys decor, ?_, ?_, again, ?_⟩
  · exact Facts.splitKeys_ne_nil (by simpa using some)
  · intro key member expression
    rcases (split key).mp member with stays | moves
    · exact stays
    · obtain ⟨v, isVar⟩ := Facts.isVar_of_splitKeys key moves
      cases expression.symm.trans isVar
  · intro I ts hold t ht u hu
    constructor
    · exact Facts.forall_of_splitKeys (fun vs same => hold.closure ht hu same)
        fun key _ v isVar => Expr.sameIn_iff isVar
    · exact fun agree key stays => agree key ((split key).mpr (.inl stays))
  · intro s s' id nested shape known done
    obtain ⟨shape', known'⟩ := Session.operator_simplifyGroupBy shape known done
    exact ⟨shape', Session.simplifyGroupBy_of_none_moved shape' known' again⟩

/-- `$1` is equivalent to `$2` and determines `$3`. -/
def pairFacts : Facts := ⟨⟨[⟨.ofList [1, 2], none⟩]⟩, [.ofLists [1] [3]]⟩

def pairKeys : List (Var × Expr) := [(11, .var 1), (12, .var 2), (13, .var 3), (14, .const (.boolean true))]

def pairTuple (first second : Bool) : Tuple :=
  Tuple.empty.extend [1, 2, 3] [.boolean first, .boolean first, .boolean second]

/-- Of three variables and a truth value only `$2` and the truth value stay. -/
theorem simplified_keys_of_pair :
    pairFacts.equivalence.Disjoint ∧ pairFacts.HoldIn [pairTuple true false, pairTuple false false] ∧
    ∃ kept moved, pairFacts.splitKeys [] pairKeys = (kept, moved) ∧
      kept = [(12, .var 2), (14, .const (.boolean true))] ∧
      ∀ I, (∀ key ∈ kept, key.2.SameIn I (pairTuple true false) (pairTuple false false)) ↔
        ∀ key ∈ pairKeys, key.2.SameIn I (pairTuple true false) (pairTuple false false) := by
  have disjoint : pairFacts.equivalence.Disjoint :=
    Equivalence.disjoint_iff_pairwise.mpr (List.pairwise_singleton _ _)
  have hold : pairFacts.HoldIn [pairTuple true false, pairTuple false false] := by
    refine ⟨?_, ?_⟩
    · intro t member c isClass
      cases List.mem_singleton.mp isClass
      refine ⟨?_, fun value impossible => nomatch impossible⟩
      fin_cases member <;> simp [pairTuple, Tuple.extend, List.lookup]
    · intro d isDependency t member u member' agree
      cases List.mem_singleton.mp isDependency
      fin_cases member <;> fin_cases member' <;>
        simp_all [pairTuple, Tuple.extend, List.lookup, Dependency.ofLists]
  obtain ⟨kept, moved, split, _, _, _, groups, _⟩ :=
    simplified_keys_make_same_groups pairFacts disjoint pairKeys []
  exact ⟨disjoint, hold, kept, moved, split, (congrArg Prod.fst split).symm.trans (by decide),
    fun I => groups I _ hold _ (by simp) _ (by simp)⟩

end QueryOptimizer
