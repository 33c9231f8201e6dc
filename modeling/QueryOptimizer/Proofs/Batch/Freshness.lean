import Mathlib
import QueryOptimizer.Proofs.Batch.Coherence
import QueryOptimizer.Proofs.Context
import QueryOptimizer.Proofs.Derivation.Fresh
import QueryOptimizer.Proofs.Plan.Garbage

/-! # Notes are as good as new

Between any two hooks of an optimization, what is noted about a reachable node is what a session without
notes derives for it on the plan as it is then. Every offer keeps the notes coherent, and so does the
removal of what cannot be reached.
-/

namespace QueryOptimizer

namespace Plan.Trimmed

variable {plan plan' : Plan} {catalog : Catalog} {columns : NodeId → VarSet} {n : NodeId}
  (trimmed : plan.Trimmed plan') (wellFormed : plan.WellFormed)

include trimmed

theorem nestedRoots (reached : plan.Reaches n) : plan'.nestedRoots n = plan.nestedRoots n := by
  unfold Plan.nestedRoots
  rw [trimmed.operator reached]

theorem groupsApart (apart : plan.GroupsApart) : plan'.GroupsApart := by
  intro n reached
  have reached := trimmed.reaches_iff.mp reached
  rw [trimmed.operator reached]
  exact apart n reached

theorem stores (stores : plan.Stores columns) : plan'.Stores columns := by
  intro n vs reached stored
  have reached := trimmed.reaches_iff.mp reached
  rw [schema_ok_iff, trimmed.node reached] at stored
  exact stores n vs reached (schema_ok_iff.mpr stored)

theorem hasSize {size : Size} (reached : plan.Reaches n) (sized : plan.HasSize catalog n size) :
    plan'.HasSize catalog n size := by
  refine Grounded.transfer plan.Reaches sized reached (fun _ reached _ => reached.input)
    (fun _ => trimmed.inputs) fun {n notes size} reached _ follow => ?_
  unfold SizeFollows Session.sizeFromInputs at follow ⊢
  dsimp only at follow ⊢
  rw [trimmed.inputs reached, trimmed.operator reached]
  exact follow

include wellFormed

theorem hasColumns (has : plan.HasColumns columns) : plan'.HasColumns columns := by
  refine has.congr (fun n => trimmed.reaches_iff.mp) (fun n owner reached operator => ?_)
    fun n reached other => ?_
  · rw [trimmed.operator reached] at operator
    rw [trimmed.inputs (wellFormed.reaches_of_reads reached (.source operator)).1]
    exact ⟨operator, rfl⟩
  · rw [trimmed.operator reached] at other ⊢
    rw [trimmed.inputs reached, trimmed.nestedRoots reached]
    exact ⟨other, fun _ => Iff.rfl⟩

theorem finds {facts : Facts} (reached : plan.Reaches n) (finds : plan.Finds catalog columns n facts) :
    plan'.Finds catalog columns n facts := by
  refine Grounded.transfer plan.Reaches finds reached
    (fun _ reached _ => wellFormed.reaches_source reached) (fun _ => trimmed.sources wellFormed)
    fun {n notes facts} reached _ follow => ⟨fun keys decor nested input operator first => ?_, ?_⟩
  · rw [trimmed.operator reached] at operator
    rw [trimmed.inputs reached] at first
    exact follow.simple keys decor nested input operator first
  · unfold ins
    rw [trimmed.operator reached, trimmed.tupleSources wellFormed reached]
    exact follow.follow

theorem hasTypes {env : TypeEnv} (reached : plan.Reaches n) (types : plan.HasTypes catalog n env) :
    plan'.HasTypes catalog n env := by
  refine Grounded.transfer plan.Reaches types reached (fun _ => reaches_typeSource wellFormed)
    (fun n reached => ?_) fun {n notes env} reached _ follow => ?_
  · unfold typeSources
    rw [trimmed.tupleSources wellFormed reached, trimmed.nestedRoots reached]
  · unfold TypesFollow
    rw [trimmed.tupleSources wellFormed reached, trimmed.nestedRoots reached, trimmed.operator reached]
    exact follow

end Plan.Trimmed

theorem NodeTable.get?_of_eraseAll {α : Type} {table : NodeTable α} {ids : List NodeId} {n : NodeId}
    {value : α} (noted : (ids.foldl erase table).get? n = some value) :
    n ∉ ids ∧ table.get? n = some value := by
  rw [get?_eraseAll] at noted
  split at noted
  · cases noted
  · exact ⟨‹_›, noted⟩

theorem RuleState.offer_enforcement {r r' : RuleState} {s s' : Session} {hook : Hook} {slot : Slot}
    {fired : Bool} (rule : r.rule = .enforceLayouts)
    (offered : r.offer hook slot s = .ok (r', s', fired)) :
    fired = false ∧ s' = s ∨ slot = .root ∧ s.enforceLayouts = .ok (s', fired) := by
  cases hook with
  | before =>
    replace offered : r.before slot s = .ok (r', s', fired) := offered
    unfold RuleState.before at offered
    rw [rule] at offered
    dsimp only at offered
    split at offered
    · rename_i atRoot
      obtain ⟨⟨s₁, fired₁⟩, done, offered⟩ := bind_ok_iff.mp offered
      cases pure_ok_iff.mp offered
      exact .inr ⟨atRoot, done⟩
    · cases pure_ok_iff.mp offered
      exact .inl ⟨rfl, rfl⟩
  | after =>
    replace offered : r.after slot s = .ok (r', s', fired) := offered
    unfold RuleState.after at offered
    rw [rule] at offered
    cases pure_ok_iff.mp offered
    exact .inl ⟨rfl, rfl⟩

namespace Session

variable {s s' x : Session} {n : NodeId} {slot : Slot} {columns : NodeId → VarSet}

theorem catalog_collectGarbage (s : Session) :
    (Batch.collectGarbage s).context.catalog = s.context.catalog :=
  (congrArg Context.catalog (Context.forgetAll_eq s.context s.plan.garbage) :)

theorem sizes_collectGarbage {size : Size} (noted : (Batch.collectGarbage s).context.sizes.get? n = some size) :
    s.context.sizes.get? n = some size :=
  (NodeTable.get?_of_eraseAll
    ((congrArg Context.sizes (Context.forgetAll_eq s.context s.plan.garbage) :) ▸ noted)).2

/-- What is known about the nodes that are left stays. -/
theorem Accurate.collectGarbage (accurate : s.Accurate columns) :
    (Batch.collectGarbage s).Accurate columns := by
  have wellFormed := accurate.wellFormed
  have trimmed := s.plan.trimmed_collectGarbage
  have back : ∀ {n}, (Batch.collectGarbage s).plan.Reaches n → s.plan.Reaches n :=
    trimmed.reaches_iff.mp
  have context := Context.forgetAll_eq s.context s.plan.garbage
  have factsLeft : (Batch.collectGarbage s).context.facts =
      s.plan.garbage.foldl NodeTable.erase s.context.facts := (congrArg Context.facts context :)
  have facts : ∀ {n facts}, (Batch.collectGarbage s).context.facts.get? n = some facts →
      n ∉ s.plan.garbage ∧ s.context.facts.get? n = some facts := fun noted =>
    NodeTable.get?_of_eraseAll (factsLeft ▸ noted)
  refine ⟨trimmed.wellFormed wellFormed, trimmed.hasColumns wellFormed accurate.has,
    trimmed.stores accurate.stores, fun n known noted => ?_, fun n known reached noted => ?_,
    fun n known reached noted c source => ?_⟩
  · obtain ⟨kept, noted⟩ := facts noted
    have present := accurate.present n known noted
    have reached : s.plan.Reaches n := by
      by_contra unreached
      exact kept (Plan.mem_garbage.mpr ⟨present, unreached⟩)
    exact (trimmed.wellFormed wellFormed).present n (trimmed.reaches_iff.mpr reached)
  · rw [catalog_collectGarbage]
    exact trimmed.finds wellFormed (back reached) (accurate.found n known (back reached) (facts noted).2)
  · have source : c ∈ s.plan.sources n := trimmed.sources wellFormed (back reached) ▸ source
    obtain ⟨found, noted⟩ := accurate.closed n known (back reached) (facts noted).2 c source
    have kept : c ∉ s.plan.garbage := fun garbage =>
      (Plan.mem_garbage.mp garbage).2 (wellFormed.reaches_source (back reached) source)
    refine ⟨found, ?_⟩
    rw [factsLeft, NodeTable.get?_eraseAll, if_neg kept]
    exact noted

namespace Coherent

theorem collectGarbage (coherent : s.Coherent) : (Batch.collectGarbage s).Coherent := by
  obtain ⟨columns, accurate⟩ := coherent.accurate
  have wellFormed := accurate.wellFormed
  have trimmed := s.plan.trimmed_collectGarbage
  have back : ∀ {n}, (Batch.collectGarbage s).plan.Reaches n → s.plan.Reaches n :=
    trimmed.reaches_iff.mp
  have types : ∀ {n env}, (Batch.collectGarbage s).context.types.get? n = some env →
      s.context.types.get? n = some env := fun noted => (NodeTable.get?_of_eraseAll
    ((congrArg Context.types (Context.forgetAll_eq s.context s.plan.garbage) :) ▸ noted)).2
  refine ⟨⟨columns, accurate.collectGarbage⟩, fun n env reached noted => ?_,
    fun n size reached noted => ?_, trimmed.groupsApart coherent.apart⟩
  · rw [catalog_collectGarbage]
    exact trimmed.hasTypes wellFormed (back reached) (coherent.types n env (back reached) (types noted))
  · rw [catalog_collectGarbage]
    exact trimmed.hasSize (back reached) (coherent.sizes n size (back reached) (sizes_collectGarbage noted))

variable {r r' : RuleState} {hook : Hook} {id : NodeId} {fired : Bool}

/-- Whether a rule reports a change or not, the plan stays well formed and keeps what is above the slot.
    If it reports none, the notes stay coherent. -/
theorem offer (coherent : s.Coherent) (holds : s.plan.HoldsReachable slot)
    (here : s.plan.nodeAt slot = .ok id) (isMatch : r.rule.pattern.isMatch s.plan id = true)
    (offered : r.offer hook slot s = .ok (r', s', fired)) :
    (s'.plan.WellFormed ∧ s'.plan.GroupsApart ∧ (fired = false → s'.Coherent)) ∧
      Plan.Retains slot.holder? s.plan s'.plan := by
  have wellFormed := coherent.wellFormed
  by_cases rule : r.rule = .enforceLayouts
  · rcases r.offer_enforcement rule offered with ⟨rfl, rfl⟩ | ⟨rfl, done⟩
    · exact ⟨⟨wellFormed, coherent.apart, fun _ => coherent⟩, .refl _ _⟩
    · exact ⟨coherent.enforceLayouts done, fun _ impossible => by cases impossible⟩
  · rcases r.offer_cases wellFormed holds here isMatch rule offered with
      ⟨rfl, learns⟩ | ⟨rfl, changed⟩
    · have coherent' := coherent.learns holds learns
      exact ⟨⟨coherent'.wellFormed, coherent'.apart, fun _ => coherent'⟩,
        (learns.redrawn wellFormed holds).retains _⟩
    · exact ⟨⟨changed.wellFormed wellFormed, changed.groupsApart coherent.apart,
        fun impossible => by cases impossible⟩, changed.retains⟩

/-- Every offer keeps the notes coherent: a rule that reports a change makes the session forget. -/
theorem kept : Sweep.Keeps fun _ s => s.Coherent where
  step {hook slot w r w' rest} coherent holds done := by
    obtain ⟨id, here, ⟨_, rfl⟩ | ⟨isMatch, r', s', fired, offered, outcome⟩⟩ :=
      Sweep.applyRule_cases done
    · exact ⟨coherent, .refl _ _⟩
    obtain ⟨⟨wellFormed, apart, unchanged⟩, retains⟩ := coherent.offer holds here isMatch offered
    rcases outcome with ⟨rfl, rfl⟩ | ⟨rfl, plan, refreshed, rfl⟩
    · exact ⟨unchanged rfl, retains⟩
    · exact ⟨of_refreshed wellFormed apart refreshed rfl rfl rfl,
        retains.trans ((Plan.refreshSchemas_only refreshed).redrawn.retains _)⟩

theorem run {batch : Batch} {changed : Bool} (coherent : s.Coherent)
    (done : batch.run s = .ok (s', changed)) : s'.Coherent := by
  obtain ⟨_, s₁, coherent₁, rfl⟩ := Batch.keeps_run kept coherent done
  exact coherent₁.collectGarbage

theorem runAll {batches : List Batch} (coherent : s.Coherent)
    (done : Batch.runAll batches s = .ok s') : s'.Coherent := by
  refine foldlM_keeps (fun s => s.Coherent) (fun batch _ s₁ s₂ coherent₁ step => ?_) coherent done
  obtain ⟨⟨s₂, changed⟩, ran, last⟩ := bind_ok_iff.mp step
  cases pure_ok_iff.mp last
  exact coherent₁.run ran

theorem runPoint {batches : List Batch} (coherent : s.Coherent) (point : Batch.RunPoint batches s x) :
    x.Coherent := by
  obtain ⟨before, batch, after, mid, rfl, ran, inside⟩ := point
  have coherent₁ : mid.Coherent := coherent.runAll ran
  obtain ⟨_, coherent₂⟩ := Batch.keeps_point kept coherent₁ inside
  exact coherent₂

end Coherent

/-- Whether nothing is noted about the plan. -/
def NothingNoted (s : Session) : Prop :=
  s.context.facts = {} ∧ s.context.types = {} ∧ s.context.sizes = {}

theorem OptimizePoint.coherent {logical physical : List Batch} (wellFormed : s.plan.WellFormed)
    (apart : s.plan.GroupsApart) (new : s.NothingNoted) (point : s.OptimizePoint logical physical x) :
    x.Coherent := by
  obtain ⟨facts, types, sizes⟩ := new
  obtain ⟨s₀, refreshed, point⟩ := point
  obtain ⟨plan, computed, rfl⟩ := refreshSchemas_ok refreshed
  have coherent := Coherent.of_refreshed (s := (s.mapContext fun context =>
    (context.reserve s.plan.maxVariable?).resetApplied).withPlan plan) wellFormed apart computed facts types
    sizes
  rcases point with point | ⟨s₁, s₂, ran, refreshed, point⟩
  · exact coherent.runPoint point
  · have coherent₁ := coherent.runAll ran
    obtain ⟨plan₁, computed₁, rfl⟩ := refreshSchemas_ok refreshed
    exact (coherent₁.refreshSchemas computed₁).runPoint point

/-! ## Starting anew -/

/-- A session about a plan without notes, with the catalog and configuration of another session. -/
def anew (s : Session) (plan : Plan) : Session where
  plan := plan
  context := { catalog := s.context.catalog, config := s.context.config }

/-- Whether the facts that are noted about reachable nodes are derived on the plan by a session without
    notes, which leaves the plan as it is. -/
def FactsAnew (s : Session) (plan : Plan) : Prop :=
  ∀ n facts, plan.Reaches n → s.context.facts.get? n = some facts →
    ∃ t, (s.anew plan).facts n = .ok (t, facts) ∧ t.plan = plan

/-- Whether the types that are noted about reachable nodes are inferred by a session without notes. -/
def TypesAnew (s : Session) : Prop :=
  ∀ n env, s.plan.Reaches n → s.context.types.get? n = some env →
    ∃ t, (s.anew s.plan).types n = .ok (t, env)

/-- Whether the sizes that are noted about reachable nodes are estimated by a session without notes. -/
def SizesAnew (s : Session) : Prop :=
  ∀ n size, s.plan.Reaches n → s.context.sizes.get? n = some size →
    ∃ t, (s.anew s.plan).size n = .ok (t, size)

theorem anew_unnoted {α : Type} {n : NodeId} {value : α} :
    ({} : NodeTable α).get? n ≠ some value := by
  intro impossible
  cases impossible

namespace Coherent

variable (coherent : s.Coherent)

include coherent

/-- Facts do not depend on how schemas are ordered. -/
theorem factsAnew {plan : Plan} (only : s.plan.OnlySchemas plan) (schemas : plan.HasSchemas)
    (stores : ∀ columns, s.plan.HasColumns columns → s.plan.Stores columns → plan.Stores columns) :
    s.FactsAnew plan := by
  intro n facts reached noted
  obtain ⟨columns, accurate⟩ := coherent.accurate
  have wellFormed := only.redrawn.wellFormed accurate.wellFormed
  have accurate' : (s.anew plan).Accurate columns := ⟨wellFormed, accurate.has.onlySchemas only,
    stores columns accurate.has accurate.stores, fun _ _ noted => absurd noted anew_unnoted,
    fun _ _ _ noted => absurd noted anew_unnoted, fun _ _ _ noted => absurd noted anew_unnoted⟩
  have finds : plan.Finds s.context.catalog columns n facts :=
    (accurate.found n facts (only.reaches_iff.mp reached) noted).regrouped only.regrouped
      fun n _ _ => only.operator n
  obtain ⟨rank, falls, low⟩ := wellFormed.exists_height
  obtain ⟨t, derived, same⟩ := accurate'.exists_ensureFactsWithin schemas falls reached finds
    (Nat.lt_succ_of_le (low n))
  obtain ⟨accurate₁, grows, facts', noted'⟩ := accurate'.ensureFacts reached derived
  have found := accurate₁.found n facts' (same ▸ reached) noted'
  rw [same, grows.catalog] at found
  refine ⟨t, bind_ok_iff.mpr ⟨t, derived, bind_ok_iff.mpr ⟨facts, ?_, rfl⟩⟩, same⟩
  rw [finds.unique found]
  exact knownFacts_ok_iff.mpr noted'

theorem typesAnew : s.TypesAnew := by
  intro n env reached noted
  have wellFormed := coherent.wellFormed
  obtain ⟨rank, falls, low⟩ := wellFormed.exists_height
  have found : (s.anew s.plan).TypesFound := fun _ _ _ noted => absurd noted anew_unnoted
  exact found.exists_typesWithin wellFormed falls reached (coherent.types n env reached noted)
    (Nat.lt_succ_of_le (low n))

theorem sizesAnew : s.SizesAnew := by
  intro n size reached noted
  obtain ⟨rank, falls, low⟩ := coherent.wellFormed.exists_height
  have found : (s.anew s.plan).SizesFound := fun _ _ _ noted => absurd noted anew_unnoted
  exact found.exists_sizeWithin falls reached (coherent.sizes n size reached noted)
    (Nat.lt_succ_of_le (low n))

end Coherent

/-- Between any two hooks of an optimization, what is noted about reachable nodes is what a session
    without notes derives on the plan, if no group-by gives two entries one name. Facts are derived from
    schemas, and a join of a node with itself that exchanges its sides has none until they are computed
    again. -/
theorem notes_between_hooks {logical physical : List Batch} (wellFormed : s.plan.WellFormed)
    (apart : s.plan.GroupsApart) (new : s.NothingNoted) (point : s.OptimizePoint logical physical x) :
    x.TypesAnew ∧ x.SizesAnew ∧ (x.plan.HasSchemas → x.FactsAnew x.plan) ∧
      ∃ plan, x.plan.refreshSchemas = .ok plan ∧ x.FactsAnew plan := by
  have coherent := point.coherent wellFormed apart new
  have now := coherent.wellFormed
  obtain ⟨plan, refreshed, only, current⟩ := now.refreshSchemas
  refine ⟨coherent.typesAnew, coherent.sizesAnew, fun schemas => ?_, plan, refreshed, ?_⟩
  · exact coherent.factsAnew (.refl _) schemas fun _ _ stores => stores
  · refine coherent.factsAnew only (fun n reached => ?_) fun _ has _ => now.stores_refreshed has refreshed
    obtain ⟨vs, stored, _⟩ := current n reached
    exact ⟨vs, stored⟩

/-- Counts groups by two columns, one of which is the key of the source. The columns get names. -/
def groupedAs (v w : Var) : Session where
  plan := {
    nodes := [
      some (.above .emptySource []),
      some (.above (.scan "S" [1, 2]) [0]),
      some (.above (.nestedSource 4) []),
      some (.above (.aggregate [5] [.call .count [.var 2] []]) [2]),
      some (.above (.groupBy [(v, .var 2), (w, .var 1)] [] [[3]]) [1]),
      some (.above (.assign [6] [.var v]) [4]),
      some (.above (.project [6]) [5]),
      some (.above (.select (.var 6)) [6])],
    root := 7 }
  context := { catalog := ⟨[{
    name := "S", columns := [("a", .integer .int64), ("b", .utf8)], key := ["a"] }]⟩ }

theorem groupedAs_wellFormed (v w : Var) : (groupedAs v w).plan.WellFormed :=
  .of_regular (.of_nodes ⟨by simp [groupedAs], by simp [groupedAs]⟩ rfl (of_decide_eq_true rfl)) id
    (fun n => if n = 2 ∨ n = 3 then [4] else []) (of_decide_eq_true rfl) rfl

theorem groupedAs_apart : (groupedAs 3 4).plan.GroupsApart := fun n reached =>
  (by decide : ∀ n ∈ (groupedAs 3 4).plan.reachable,
    ((groupedAs 3 4).plan.operator n).groupOutputs.Nodup) n (Plan.mem_reachable reached)

/-- Infers types, and offers the root to the inlining of variables then. -/
def inlinedOnce (s : Session) : Except Failure Session := do
  let s ← (s.mapContext fun context =>
    (context.reserve s.plan.maxVariable?).resetApplied).refreshSchemas
  let s ← Batch.runAll [.once "types" true [.inferTypes]] s
  let w ← Sweep.applyRule .before .root { rules := [], session := s } { rule := .inlineVariables }
  return w.session

theorem inlinedOnce_point {α : Type} {view : Session → α} {seen : α}
    (done : s.inlinedOnce.toOption.map view = some seen) : ∃ x, view x = seen ∧
      s.OptimizePoint [.once "types" true [.inferTypes], .once "inlining" true [.inlineVariables]] [] x := by
  obtain ⟨x, done, same⟩ := Option.map_eq_some_iff.mp done
  obtain ⟨s₀, refreshed, done⟩ := bind_ok_iff.mp (toOption_eq_some_iff.mp done)
  obtain ⟨s₁, inferred, done⟩ := bind_ok_iff.mp done
  obtain ⟨w, offered, done⟩ := bind_ok_iff.mp done
  cases pure_ok_iff.mp done
  obtain ⟨depth, enough⟩ : ∃ depth, s₁.plan.sweepDepth = depth + 1 := ⟨_, rfl⟩
  refine ⟨_, same, s₀, refreshed, .inl ⟨_, _, [], s₁, rfl, inferred, ?_⟩⟩
  change Sweep.Point true s₁.plan.sweepDepth _ .root w.session
  rw [enough]
  exact .inl ⟨[], _, [], _, rfl, rfl, w, offered, rfl⟩

/-- Inlining derives facts, by which a key becomes a decoration after types were noted. -/
theorem notes_between_hooks_grouped : ∃ x,
    (groupedAs 3 4).OptimizePoint
      [.once "types" true [.inferTypes], .once "inlining" true [.inlineVariables]] [] x ∧
    x.plan.operator 4 = .groupBy [(4, .var 1)] [(3, .var 2)] [[3]] ∧
    (x.context.facts.get? 4).isSome = true ∧ (x.context.types.get? 4).isSome = true ∧
    x.TypesAnew ∧ x.SizesAnew ∧ (x.plan.HasSchemas → x.FactsAnew x.plan) ∧
      ∃ plan, x.plan.refreshSchemas = .ok plan ∧ x.FactsAnew plan := by
  have reached : ((groupedAs 3 4).inlinedOnce.toOption.map fun x =>
      (x.plan.operator 4, (x.context.facts.get? 4).isSome, (x.context.types.get? 4).isSome)) =
        some (.groupBy [(4, .var 1)] [(3, .var 2)] [[3]], true, true) := by
    decide +kernel
  obtain ⟨x, same, point⟩ := inlinedOnce_point reached
  obtain ⟨operator, same⟩ := Prod.mk.inj same
  obtain ⟨facts, types⟩ := Prod.mk.inj same
  exact ⟨x, point, operator, facts, types, notes_between_hooks (groupedAs_wellFormed 3 4) groupedAs_apart
    ⟨rfl, rfl, rfl⟩ point⟩

/-- With one name for two columns, the type of the one that comes last is noted, and which one that is
    changes with the key. -/
theorem types_between_hooks_of_one_name : (groupedAs 3 3).plan.WellFormed ∧ ∃ x,
    (groupedAs 3 3).OptimizePoint
      [.once "types" true [.inferTypes], .once "inlining" true [.inlineVariables]] [] x ∧
    ¬ x.TypesAnew := by
  have reached : ((groupedAs 3 3).inlinedOnce.toOption.map fun x =>
      (decide (4 ∈ x.plan.reachable), (x.context.types.get? 4).bind (·.get? 3),
        ((x.anew x.plan).types 4).toOption.bind (·.2.get? 3))) =
      some (true, some (.integer .int64), some .utf8) := by
    decide +kernel
  obtain ⟨x, same, point⟩ := inlinedOnce_point reached
  obtain ⟨listed, same⟩ := Prod.mk.inj same
  obtain ⟨noted, inferred⟩ := Prod.mk.inj same
  refine ⟨groupedAs_wellFormed 3 3, x, point, fun anew => ?_⟩
  obtain ⟨env, types, integer⟩ := Option.bind_eq_some_iff.mp noted
  obtain ⟨t, again⟩ := anew 4 env (Plan.reaches_of_mem_reachable (of_decide_eq_true listed)) types
  rw [again] at inferred
  cases integer.symm.trans inferred

end Session

end QueryOptimizer
