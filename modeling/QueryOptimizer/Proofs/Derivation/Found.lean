import Mathlib
import QueryOptimizer.Proofs.Derivation.Frame
import QueryOptimizer.Proofs.Facts.Keys
import QueryOptimizer.Proofs.Plan.Columns

/-! # Facts that are found on a plan

The facts of a node follow from those of its sources, provided that no group-by on the way needs to be
simplified. What a derivation notes is found in this way on the plan that it leaves behind, and so is
all that was noted before: a group-by that is simplified was not used yet.
-/

namespace QueryOptimizer

open Session (determining groupNames)

/-- Values of nodes that follow from the values of other nodes by a rule. -/
inductive Grounded {V : Type} (next : NodeId → List NodeId)
    (Rule : NodeId → (NodeId → V) → V → Prop) : NodeId → V → Prop where
  | node {n : NodeId} {notes : NodeId → V} {v : V}
      (found : ∀ c ∈ next n, Grounded next Rule c (notes c)) (follow : Rule n notes v) :
      Grounded next Rule n v

namespace Grounded

variable {V : Type} {next next' : NodeId → List NodeId} {Rule Rule' : NodeId → (NodeId → V) → V → Prop}
  {n : NodeId} {v v' : V}

theorem unique (determined : ∀ {n notes notes' v v'}, (∀ c ∈ next n, notes c = notes' c) →
      Rule n notes v → Rule n notes' v' → v = v') (first : Grounded next Rule n v)
    (second : Grounded next Rule n v') : v = v' := by
  induction first generalizing v' with
  | node _ follow ih =>
    cases second with
    | node found' follow' => exact determined (fun c member => ih c member (found' c member)) follow follow'

/-- A value still follows if the rule still holds wherever it was used. -/
theorem transfer (P : NodeId → Prop) (grounded : Grounded next Rule n v) (start : P n)
    (closed : ∀ n, P n → ∀ c ∈ next n, P c) (same : ∀ n, P n → next' n = next n)
    (holds : ∀ {n notes v}, P n → (∀ c ∈ next n, Grounded next Rule c (notes c)) → Rule n notes v →
      Rule' n notes v) : Grounded next' Rule' n v := by
  induction grounded with
  | @node n notes v found follow ih =>
    refine .node (fun c member => ?_) (holds start found follow)
    rw [same n start] at member
    exact ih c member (closed n start c member)

end Grounded

/-- The facts about the result of an operator, from its columns and from the columns and facts of the
    nodes that it gets its tuples from. -/
def Operator.facts? (catalog : Catalog) (columns : VarSet) (ins : List (VarSet × Facts)) :
    Operator → Option Facts
  | emptySource | write .. | insertDelete .. | sink | unionAll _ | script .. => some .empty
  | scan source vars => (catalog.dependencies source vars).toOption.map fun ds => ⟨{}, ds⟩
  | nestedSource _ | exchange | order .. | limit .. | replicate | runningAggregate .. | unnest .. =>
    ins[0]?.map (·.2)
  | select condition => ins[0]?.map (·.2.assume condition)
  | join kind condition =>
    ins[0]?.bind fun left => ins[1]?.map fun right =>
      let dependencies := left.2.dependencies ++ right.2.dependencies
      match kind with
      | .inner => Facts.assume ⟨left.2.equivalence.union right.2.equivalence, dependencies⟩ condition
      | .leftOuter => ⟨left.2.equivalence,
          dependencies ++ Facts.outerJoin condition left.1.toList right.1.toList⟩
  | assign vars exprs =>
    ins[0]?.map fun input => (vars.zip exprs).foldl (fun facts a => facts.assign a.1 a.2) input.2
  | project vars | distinct vars => ins[0]?.map (·.2.restrict vars)
  | groupBy keys decor nested =>
    let passed := ((Operator.groupBy keys decor nested).groupColumns?).getD []
    let keyVars : List Var := keys.map (·.1)
    ins[0]?.map fun input => determining (input.2.rename (groupNames passed)) keyVars
      (columns.toList.filter fun v => decide (v ∉ keyVars))
  | aggregate vars _ => some ⟨{}, [.ofLists [] vars]⟩
  | subplan _ =>
    ins[0]?.map fun input => determining input.2 input.1.toList
      (columns.toList.filter fun v => decide (v ∉ input.1.toList))

/-! ## Classes of derived facts -/

section Classes

variable {P : Equivalence → Prop} {facts : Facts} {v : Var} {condition e : Expr}

theorem Facts.equivalence_assume (kept : Equivalence.Kept P) (holds : P facts.equivalence) :
    P (facts.assume condition).equivalence := by
  refine foldl_keeps (fun facts : Facts => P facts.equivalence) (fun e _ facts holds => ?_) holds
  unfold assumeConjunct
  split
  · exact kept.merge holds
  · dsimp only
    split <;> exact kept.addConstant holds
  · dsimp only
    split <;> exact kept.addConstant holds
  · exact holds

theorem Facts.equivalence_assign (kept : Equivalence.Kept P) (holds : P facts.equivalence) :
    P (facts.assign v e).equivalence := by
  have compute : ∀ facts : Facts, (assign.compute facts v e).equivalence = facts.equivalence := by
    intro facts
    unfold assign.compute
    dsimp only
    split <;> rfl
  unfold assign
  split
  · exact kept.addConstant holds
  · rw [compute]
    exact kept.merge holds
  · rw [compute]
    exact holds

theorem Facts.equivalence_determining (facts : Facts) (head tail : List Var) :
    (determining facts head tail).equivalence = facts.equivalence := by
  unfold determining
  split <;> rfl

theorem Operator.facts?_keeps {catalog : Catalog} {columns : VarSet} {ins : List (VarSet × Facts)}
    {op : Operator} (kept : Equivalence.Kept P) (holds : ∀ input ∈ ins, P input.2.equivalence)
    (follow : op.facts? catalog columns ins = some facts) : P facts.equivalence := by
  have first : ∀ {i : Nat} {input : VarSet × Facts}, ins[i]? = some input → P input.2.equivalence :=
    fun found => holds _ (List.mem_of_getElem? found)
  cases op with
  | emptySource | write | insertDelete | sink | unionAll | script | aggregate =>
    cases follow
    exact kept.empty
  | scan =>
    obtain ⟨ds, _, rfl⟩ := Option.map_eq_some_iff.mp follow
    exact kept.empty
  | nestedSource | exchange | order | limit | replicate | runningAggregate | unnest =>
    obtain ⟨input, found, rfl⟩ := Option.map_eq_some_iff.mp follow
    exact first found
  | select =>
    obtain ⟨input, found, rfl⟩ := Option.map_eq_some_iff.mp follow
    exact Facts.equivalence_assume kept (first found)
  | join kind =>
    obtain ⟨left, foundLeft, follow⟩ := Option.bind_eq_some_iff.mp follow
    obtain ⟨right, _, rfl⟩ := Option.map_eq_some_iff.mp follow
    cases kind with
    | inner => exact Facts.equivalence_assume kept (kept.union _ (first foundLeft))
    | leftOuter => exact first foundLeft
  | assign vars exprs =>
    obtain ⟨input, found, rfl⟩ := Option.map_eq_some_iff.mp follow
    exact foldl_keeps (fun facts : Facts => P facts.equivalence)
      (fun _ _ _ holds => Facts.equivalence_assign kept holds) (first found)
  | project | distinct =>
    obtain ⟨input, found, rfl⟩ := Option.map_eq_some_iff.mp follow
    exact kept.restrict _ (first found)
  | groupBy =>
    obtain ⟨input, _, rfl⟩ := Option.map_eq_some_iff.mp follow
    rw [Facts.equivalence_determining]
    exact kept.rename _ _
  | subplan =>
    obtain ⟨input, found, rfl⟩ := Option.map_eq_some_iff.mp follow
    rw [Facts.equivalence_determining]
    exact first found

end Classes

namespace Plan

variable {plan plan' : Plan} {catalog : Catalog} {columns : NodeId → VarSet} {notes : NodeId → Facts}
  {n : NodeId} {facts facts' : Facts}

/-- What an operator gets from the nodes that it gets its tuples from. -/
def ins (plan : Plan) (columns : NodeId → VarSet) (notes : NodeId → Facts) (n : NodeId) :
    List (VarSet × Facts) :=
  (plan.tupleSources n).map fun c => (columns c, notes c)

/-- Whether the facts of a node follow from notes about its sources. A group-by has no key that follows
    from the others. -/
structure FactsFollow (plan : Plan) (catalog : Catalog) (columns : NodeId → VarSet) (n : NodeId)
    (notes : NodeId → Facts) (facts : Facts) : Prop where
  simple : ∀ keys decor nested input, plan.operator n = .groupBy keys decor nested →
    (plan.inputs n)[0]? = some input → ((notes input).splitKeys [] keys).2 = []
  follow : (plan.operator n).facts? catalog (columns n) (plan.ins columns notes n) = some facts

/-- The facts of a node by a derivation that simplifies no group-by. -/
def Finds (plan : Plan) (catalog : Catalog) (columns : NodeId → VarSet) : NodeId → Facts → Prop :=
  Grounded plan.sources (plan.FactsFollow catalog columns)

theorem ins_congr {notes' : NodeId → Facts} (same : ∀ c ∈ plan.sources n, notes c = notes' c) :
    plan.ins columns notes n = plan.ins columns notes' n :=
  List.map_congr_left fun c member => by rw [same c (mem_sources_of_tupleSource member)]

theorem Finds.unique (first : plan.Finds catalog columns n facts)
    (second : plan.Finds catalog columns n facts') : facts = facts' := by
  refine Grounded.unique (fun same follow follow' => ?_) first second
  have first := follow.follow
  rw [ins_congr same] at first
  exact Option.some.inj (first.symm.trans follow'.follow)

theorem Finds.disjoint (finds : plan.Finds catalog columns n facts) : facts.equivalence.Disjoint := by
  induction finds with
  | node found follow ih =>
    refine Operator.facts?_keeps Equivalence.kept_disjoint (fun input member => ?_) follow.follow
    obtain ⟨c, source, rfl⟩ := List.mem_map.mp member
    exact ih c (mem_sources_of_tupleSource source)

/-- What was found is found again, if only group-bys changed that were not used. -/
theorem Finds.regrouped (finds : plan.Finds catalog columns n facts)
    (regrouped : plan.Regrouped plan') (fixed : ∀ n facts, plan.Finds catalog columns n facts →
      plan'.operator n = plan.operator n) : plan'.Finds catalog columns n facts := by
  refine Grounded.transfer (fun _ => True) finds trivial (fun _ _ _ _ => trivial)
    (fun n _ => regrouped.sources n) fun {n notes facts} _ found follow => ?_
  have same := fixed n facts (.node found follow)
  refine ⟨fun keys decor nested input operator first => ?_, ?_⟩
  · exact follow.simple keys decor nested input (same ▸ operator) (regrouped.inputs n ▸ first)
  · unfold ins
    rw [same, regrouped.tupleSources]
    exact follow.follow

end Plan

namespace Session

variable {s s' : Session} {columns : NodeId → VarSet} {id n : NodeId} {facts : Facts} {fuel : Nat}

/-- The facts that are noted for a node. -/
def note (s : Session) (n : NodeId) : Facts := (s.context.facts.get? n).getD .empty

theorem note_eq (noted : s.context.facts.get? n = some facts) : s.note n = facts := by
  unfold note
  rw [noted]
  rfl

theorem determining_congr {head head' tail tail' : List Var} (heads : SameVars head head')
    (tails : SameVars tail tail') : determining facts head tail = determining facts head' tail' := by
  have empty : tail.isEmpty = tail'.isEmpty := by
    rw [Bool.eq_iff_iff, List.isEmpty_iff, List.isEmpty_iff, List.eq_nil_iff_forall_not_mem,
      List.eq_nil_iff_forall_not_mem]
    exact forall_congr' fun v => not_congr (tails v)
  unfold determining Dependency.ofLists
  rw [empty, ofList_eq_of_sameVars heads, ofList_eq_of_sameVars tails]

theorem outerJoin_congr {condition : Expr} {left left' right right' : List Var}
    (lefts : SameVars left left') (rights : SameVars right right') :
    Facts.outerJoin condition left right = Facts.outerJoin condition left' right' := by
  unfold Facts.outerJoin
  simp only [lefts _, rights _]

theorem sameVars_filter {vs vs' ws ws' : List Var} (same : SameVars vs vs') (others : SameVars ws ws') :
    SameVars (vs.filter fun v => decide (v ∉ ws)) (vs'.filter fun v => decide (v ∉ ws')) := by
  intro v
  simp only [List.mem_filter, same v, others v]

theorem inputFacts_ins (columns : NodeId → VarSet) {index : Nat} (other : ∀ owner, s.plan.operator id ≠ .nestedSource owner)
    (known : s.inputFacts id index = .ok facts) : ∃ input, (s.plan.inputs id)[index]? = some input ∧
      (s.plan.ins columns s.note id)[index]? = some (columns input, facts) := by
  obtain ⟨input, found, noted⟩ := inputFacts_ok known
  refine ⟨input, found, ?_⟩
  unfold Plan.ins
  rw [Plan.tupleSources_eq_inputs other, List.getElem?_map, found, Option.map_some, note_eq noted]

/-- The facts that a node gets from its inputs follow from the notes. -/
theorem factsFromInputs_follow (stores : s.plan.Stores columns) (reached : s.plan.Reaches id)
    (derived : s.factsFromInputs id = .ok facts) :
    (s.plan.operator id).facts? s.context.catalog (columns id) (s.plan.ins columns s.note id) =
      some facts := by
  have stored : ∀ {n vs}, s.plan.Reaches n → s.plan.schema n = .ok vs →
      SameVars vs (columns n).toList := fun reached schema =>
    sameVars_of_ofList (stores _ _ reached schema)
  unfold factsFromInputs at derived
  cases operator : s.plan.operator id with
  | nestedSource owner =>
    rw [operator] at derived
    obtain ⟨input, found, noted⟩ := inputFacts_ok derived
    unfold Plan.ins
    rw [Plan.tupleSources_nestedSource operator, found]
    exact congrArg some (note_eq noted)
  | _ => ?_
  all_goals
    have other : ∀ owner, s.plan.operator id ≠ .nestedSource owner := by
      intro owner same
      cases operator.symm.trans same
    rw [operator] at derived
  case emptySource | write | insertDelete | sink | unionAll | script | aggregate =>
    cases derived
    rfl
  case scan =>
    obtain ⟨ds, known, derived⟩ := bind_ok_iff.mp derived
    cases pure_ok_iff.mp derived
    exact Option.map_eq_some_iff.mpr ⟨ds, by rw [known]; rfl, rfl⟩
  case exchange | order | limit | replicate | runningAggregate | unnest =>
    obtain ⟨input, _, first⟩ := inputFacts_ins columns other derived
    exact Option.map_eq_some_iff.mpr ⟨_, first, rfl⟩
  case select | assign | project | distinct =>
    obtain ⟨known, noted, derived⟩ := bind_ok_iff.mp derived
    cases pure_ok_iff.mp derived
    obtain ⟨input, _, first⟩ := inputFacts_ins columns other noted
    exact Option.map_eq_some_iff.mpr ⟨_, first, rfl⟩
  case join kind condition =>
    obtain ⟨left, notedLeft, derived⟩ := bind_ok_iff.mp derived
    obtain ⟨right, notedRight, derived⟩ := bind_ok_iff.mp derived
    obtain ⟨l, isLeft, first⟩ := inputFacts_ins columns other notedLeft
    obtain ⟨r, isRight, second⟩ := inputFacts_ins columns other notedRight
    refine Option.bind_eq_some_iff.mpr ⟨_, first, Option.map_eq_some_iff.mpr ⟨_, second, ?_⟩⟩
    cases kind with
    | inner =>
      cases pure_ok_iff.mp derived
      rfl
    | leftOuter =>
      obtain ⟨l', isLeft', derived⟩ := bind_ok_iff.mp derived
      obtain ⟨leftSchema, storedLeft, derived⟩ := bind_ok_iff.mp derived
      obtain ⟨r', isRight', derived⟩ := bind_ok_iff.mp derived
      obtain ⟨rightSchema, storedRight, derived⟩ := bind_ok_iff.mp derived
      cases pure_ok_iff.mp derived
      cases isLeft.symm.trans (Plan.input_ok_iff.mp isLeft')
      cases isRight.symm.trans (Plan.input_ok_iff.mp isRight')
      have reachedLeft := reached.input (List.mem_of_getElem? isLeft)
      have reachedRight := reached.input (List.mem_of_getElem? isRight)
      dsimp only
      rw [outerJoin_congr (stored reachedLeft storedLeft) (stored reachedRight storedRight)]
  case groupBy keys decor nested =>
    obtain ⟨known, noted, derived⟩ := bind_ok_iff.mp derived
    obtain ⟨schema, storedHere, derived⟩ := bind_ok_iff.mp derived
    cases pure_ok_iff.mp derived
    obtain ⟨input, _, first⟩ := inputFacts_ins columns other noted
    refine Option.map_eq_some_iff.mpr ⟨_, first, determining_congr (fun _ => Iff.rfl) ?_⟩
    exact sameVars_filter (fun v => (stored reached storedHere v).symm) fun _ => Iff.rfl
  case subplan nested =>
    obtain ⟨known, noted, derived⟩ := bind_ok_iff.mp derived
    obtain ⟨input', found', derived⟩ := bind_ok_iff.mp derived
    obtain ⟨live, storedInput, derived⟩ := bind_ok_iff.mp derived
    obtain ⟨schema, storedHere, derived⟩ := bind_ok_iff.mp derived
    cases pure_ok_iff.mp derived
    obtain ⟨input, found, first⟩ := inputFacts_ins columns other noted
    cases found.symm.trans (Plan.input_ok_iff.mp found')
    have here := stored reached storedHere
    have below := stored (reached.input (List.mem_of_getElem? found)) storedInput
    refine Option.map_eq_some_iff.mpr ⟨_, first, determining_congr (fun v => (below v).symm) ?_⟩
    exact sameVars_filter (fun v => (here v).symm) fun v => (below v).symm

/-- Whether what is stored and noted about the plan can be found on it. There are notes about the sources
    of every node that has a note. -/
structure Accurate (s : Session) (columns : NodeId → VarSet) : Prop where
  wellFormed : s.plan.WellFormed
  has : s.plan.HasColumns columns
  stores : s.plan.Stores columns
  present : ∀ n facts, s.context.facts.get? n = some facts → s.plan.contains n = true
  found : ∀ n facts, s.plan.Reaches n → s.context.facts.get? n = some facts →
    s.plan.Finds s.context.catalog columns n facts
  closed : ∀ n facts, s.plan.Reaches n → s.context.facts.get? n = some facts →
    ∀ c ∈ s.plan.sources n, ∃ facts, s.context.facts.get? c = some facts

/-- A session with more notes. Group-bys that need no simplification, or were used to find something, are
    the same. -/
structure Grows (s s' : Session) (columns : NodeId → VarSet) : Prop where
  derives : s.Derives s'
  noted : ∀ n facts, s.context.facts.get? n = some facts → s'.context.facts.get? n = some facts
  fixed : ∀ n, s.Simplified n → s'.plan.operator n = s.plan.operator n
  used : ∀ n facts, s.plan.Finds s.context.catalog columns n facts →
    s'.plan.operator n = s.plan.operator n
  current : s.plan.SchemasCurrent → s'.plan.SchemasCurrent
  physical : ∀ n, (s'.plan.node n).physical = (s.plan.node n).physical

namespace Grows

theorem refl (s : Session) (columns : NodeId → VarSet) : s.Grows s columns :=
  ⟨.refl s, fun _ _ noted => noted, fun _ _ => rfl, fun _ _ _ => rfl, fun current => current,
    fun _ => rfl⟩

variable (grows : s.Grows s' columns)

include grows

theorem regrouped : s.plan.Regrouped s'.plan := by
  obtain ⟨plan, facts, rfl, regrouped⟩ := grows.derives
  exact regrouped

theorem catalog : s'.context.catalog = s.context.catalog := by
  obtain ⟨plan, facts, rfl, _⟩ := grows.derives
  rfl

theorem finds (finds : s.plan.Finds s.context.catalog columns n facts) :
    s'.plan.Finds s.context.catalog columns n facts :=
  finds.regrouped grows.regrouped grows.used

theorem inputFacts {index : Nat} (known : s.inputFacts n index = .ok facts) :
    s'.inputFacts n index = .ok facts := by
  obtain ⟨input, found, noted⟩ := inputFacts_ok known
  refine bind_ok_iff.mpr ⟨input, Plan.input_ok_iff.mpr ?_, knownFacts_ok_iff.mpr
    (grows.noted input facts noted)⟩
  rw [grows.regrouped.inputs]
  exact found

theorem simplified (simplified : s.Simplified n) : s'.Simplified n := by
  intro keys decor nested shape
  obtain ⟨facts, known, none⟩ := simplified keys decor nested (grows.fixed n simplified ▸ shape)
  exact ⟨facts, grows.inputFacts known, none⟩

theorem trans {s'' : Session} (later : s'.Grows s'' columns) : s.Grows s'' columns where
  derives := grows.derives.trans later.derives
  noted n facts noted := later.noted n facts (grows.noted n facts noted)
  fixed n simplified := (later.fixed n (grows.simplified simplified)).trans (grows.fixed n simplified)
  used n facts finds :=
    (later.used n facts (grows.catalog ▸ grows.finds finds)).trans (grows.used n facts finds)
  current current := later.current (grows.current current)
  physical n := (later.physical n).trans (grows.physical n)

end Grows

/-- A group-by whose keys are not all needed was not used to find anything. -/
theorem Accurate.simplifyGroupBy (accurate : s.Accurate columns) (reached : s.plan.Reaches id)
    (done : s.simplifyGroupBy id = .ok s') :
    s'.Accurate columns ∧ s.Grows s' columns ∧ s'.Simplified id := by
  rcases simplifyGroupBy_cases done with
    ⟨rfl, simplified⟩ | ⟨keys, decor, nested, facts, shape, known, moved, done⟩
  · exact ⟨accurate, .refl _ _, simplified⟩
  obtain ⟨plan, refreshed, rfl⟩ := refreshSchemas_ok done
  have first : s.plan.Regrouped (s.plan.setOperator id (.groupBy (facts.splitKeys [] keys).1
      (decor ++ (facts.splitKeys [] keys).2) nested)) :=
    .setOperator shape (facts.perm_splitKeys_decor keys decor)
  replace refreshed : (s.plan.setOperator id (.groupBy (facts.splitKeys [] keys).1
      (decor ++ (facts.splitKeys [] keys).2) nested)).refreshSchemas = .ok plan := refreshed
  have only := Plan.refreshSchemas_only refreshed
  have regrouped : s.plan.Regrouped plan := first.trans only.regrouped
  have wellFormed' := first.redrawn.wellFormed accurate.wellFormed
  obtain ⟨input, source, noted⟩ := inputFacts_ok known
  have finds := accurate.found input facts (reached.input (List.mem_of_getElem? source)) noted
  have others : ∀ n, n ≠ id → plan.operator n = s.plan.operator n := by
    intro n different
    rw [only.operator n]
    unfold Plan.operator Plan.setOperator
    rw [Plan.node_modify_of_ne different]
  have here : plan.operator id = .groupBy (facts.splitKeys [] keys).1
      (decor ++ (facts.splitKeys [] keys).2) nested := by
    rw [only.operator id]
    exact Plan.operator_setOperator_self (accurate.wellFormed.present id reached)
  have used : ∀ n g, s.plan.Finds s.context.catalog columns n g →
      plan.operator n = s.plan.operator n := by
    intro n g found
    refine others n ?_
    rintro rfl
    cases found with
    | node sources follow =>
      have same := Plan.Finds.unique (sources input (Plan.mem_sources_of_input (List.mem_of_getElem? source)))
        finds
      exact moved (same ▸ follow.simple keys decor nested input shape source)
  have physical : ∀ n, (plan.node n).physical = (s.plan.node n).physical := fun n =>
    (only.physical n).trans (Plan.node_modify_keeps Node.physical fun _ => rfl)
  have grows : s.Grows (s.withPlan plan) columns := by
    refine ⟨⟨plan, s.context.facts, rfl, regrouped⟩, fun _ _ noted => noted, fun n simplified => ?_, used,
      fun _ => wellFormed'.current_refreshed refreshed, physical⟩
    refine others n ?_
    rintro rfl
    obtain ⟨facts', known', none⟩ := simplified keys decor nested shape
    cases known.symm.trans known'
    exact moved none
  refine ⟨⟨regrouped.redrawn.wellFormed accurate.wellFormed, accurate.has.regrouped regrouped,
    wellFormed'.stores_refreshed (accurate.has.regrouped first) refreshed,
    fun n g noted => (regrouped.contains n).trans (accurate.present n g noted), fun n g reached' noted =>
      grows.finds (accurate.found n g (regrouped.redrawn.reaches_iff.mp reached') noted),
    fun n g reached' noted c source => accurate.closed n g (regrouped.redrawn.reaches_iff.mp reached') noted
      c (regrouped.sources n ▸ source)⟩, grows, ?_⟩
  intro keys' decor' nested' shape'
  cases here.symm.trans shape'
  exact ⟨facts, grows.inputFacts known, facts.splitKeys_again finds.disjoint keys⟩

/-- Deriving facts, for one node after the other. -/
theorem Accurate.foldlM {ids : List NodeId} {f : Session → NodeId → Except Failure Session}
    (each : ∀ n ∈ ids, ∀ s s', s.Accurate columns → s.plan.Reaches n → f s n = .ok s' →
      s'.Accurate columns ∧ s.Grows s' columns ∧ ∃ facts, s'.context.facts.get? n = some facts)
    (accurate : s.Accurate columns) (reached : ∀ n ∈ ids, s.plan.Reaches n)
    (done : ids.foldlM f s = .ok s') : s'.Accurate columns ∧ s.Grows s' columns ∧
      ∀ n ∈ ids, ∃ facts, s'.context.facts.get? n = some facts := by
  induction ids generalizing s with
  | nil =>
    cases foldlM_nil_ok_iff.mp done
    exact ⟨accurate, .refl _ _, by simp⟩
  | cons id ids ih =>
    obtain ⟨s₁, first, done⟩ := foldlM_cons_ok_iff.mp done
    obtain ⟨accurate₁, grows₁, facts, noted⟩ := each id List.mem_cons_self s s₁ accurate
      (reached id List.mem_cons_self) first
    obtain ⟨accurate₂, grows₂, known⟩ := ih (fun n member => each n (List.mem_cons_of_mem _ member))
      accurate₁ (fun n member => grows₁.regrouped.redrawn.reaches_iff.mpr
        (reached n (List.mem_cons_of_mem _ member))) done
    refine ⟨accurate₂, grows₁.trans grows₂, fun n member => ?_⟩
    rcases List.mem_cons.mp member with rfl | member
    · exact ⟨facts, grows₂.noted n facts noted⟩
    · exact known n member

/-- A derivation notes what is found on the plan that it leaves behind. -/
theorem Accurate.ensureFactsWithin (accurate : s.Accurate columns) (reached : s.plan.Reaches id)
    (done : ensureFactsWithin fuel s id = .ok s') : s'.Accurate columns ∧ s.Grows s' columns ∧
      ∃ facts, s'.context.facts.get? id = some facts := by
  induction fuel generalizing s s' id with
  | zero => cases done
  | succ fuel ih =>
    rcases ensureFactsWithin_cases done with ⟨known, rfl⟩ |
      ⟨s₁, s₂, s₃, s₄, facts, _, inputs, owner, simplified, nested, derived, rfl⟩
    · exact ⟨accurate, .refl _ _, Option.isSome_iff_exists.mp known⟩
    obtain ⟨accurate₁, grows₁, notedInputs⟩ := accurate.foldlM (fun _ _ _ _ accurate reached =>
      ih accurate reached) (fun n member => reached.input member) inputs
    have reached₁ := grows₁.regrouped.redrawn.reaches_iff.mpr reached
    obtain ⟨accurate₂, grows₂, notedOwner⟩ : s₂.Accurate columns ∧ s₁.Grows s₂ columns ∧
        ∀ c ∈ s₁.plan.tupleSources id, ∃ facts, s₂.context.facts.get? c = some facts := by
      rcases owner with ⟨owner, input, operator, found, ensured⟩ | ⟨other, rfl⟩
      · have source : input ∈ s₁.plan.sources id :=
          Plan.mem_sources_iff.mpr (.inr ⟨owner, operator, found⟩)
        obtain ⟨accurate₂, grows₂, noted⟩ := ih accurate₁
          (accurate₁.wellFormed.reaches_source reached₁ source) ensured
        refine ⟨accurate₂, grows₂, fun c member => ?_⟩
        rw [Plan.tupleSources_nestedSource operator, found] at member
        cases List.mem_singleton.mp member
        exact noted
      · refine ⟨accurate₁, .refl _ _, fun c member => ?_⟩
        rw [Plan.tupleSources_eq_inputs other, grows₁.regrouped.inputs] at member
        exact notedInputs c member
    have reached₂ := grows₂.regrouped.redrawn.reaches_iff.mpr reached₁
    obtain ⟨accurate₃, grows₃, simple₃⟩ := accurate₂.simplifyGroupBy reached₂ simplified
    have reached₃ := grows₃.regrouped.redrawn.reaches_iff.mpr reached₂
    obtain ⟨accurate₄, grows₄, notedRoots⟩ := accurate₃.foldlM (fun _ _ _ _ accurate reached =>
      ih accurate reached) (fun n member => reached₃.nestedRoot member) nested
    have reached₄ := grows₄.regrouped.redrawn.reaches_iff.mpr reached₃
    have simple := grows₄.simplified simple₃
    have toLast := grows₂.trans (grows₃.trans grows₄)
    have sources : ∀ c ∈ s₄.plan.sources id, ∃ facts, s₄.context.facts.get? c = some facts := by
      intro c source
      rcases Plan.source_cases source with isInput | isRoot | isSource
      · rw [(grows₁.trans toLast).regrouped.inputs] at isInput
        obtain ⟨facts, noted⟩ := notedInputs c isInput
        exact ⟨facts, toLast.noted c facts noted⟩
      · rw [grows₄.regrouped.nestedRoots] at isRoot
        exact notedRoots c isRoot
      · rw [toLast.regrouped.tupleSources] at isSource
        obtain ⟨facts, noted⟩ := notedOwner c isSource
        exact ⟨facts, (grows₃.trans grows₄).noted c facts noted⟩
    have finds : s₄.plan.Finds s₄.context.catalog columns id facts := by
      refine @Grounded.node _ _ _ _ s₄.note _ (fun c source => ?_)
        ⟨fun keys decor nested input shape found => ?_,
          factsFromInputs_follow accurate₄.stores reached₄ derived⟩
      · obtain ⟨known, noted⟩ := sources c source
        rw [note_eq noted]
        exact accurate₄.found c known (accurate₄.wellFormed.reaches_source reached₄ source) noted
      · obtain ⟨known, isKnown, none⟩ := simple keys decor nested shape
        obtain ⟨input', found', noted⟩ := inputFacts_ok isKnown
        cases found.symm.trans found'
        rw [note_eq noted]
        exact none
    obtain ⟨found, kept, noted⟩ :=
      NodeTable.insert_found accurate₄.found reached₄ finds fun other => other.unique finds
    refine ⟨⟨accurate₄.wellFormed, accurate₄.has, accurate₄.stores, fun n g noted => ?_, found,
        fun n g reached' noted c source => ?_⟩,
      (grows₁.trans toLast).trans ⟨⟨s₄.plan, _, rfl, .refl _⟩, kept, fun _ _ => rfl,
        fun _ _ _ => rfl, fun current => current, fun _ => rfl⟩, facts, noted⟩
    · rcases NodeTable.get?_insert_cases noted with ⟨rfl, _⟩ | before
      · exact accurate₄.wellFormed.present n reached₄
      · exact accurate₄.present n g before
    · obtain ⟨h, known⟩ : ∃ h, s₄.context.facts.get? c = some h := by
        rcases NodeTable.get?_insert_cases noted with ⟨rfl, _⟩ | before
        · exact sources c source
        · exact accurate₄.closed n g reached' before c source
      exact ⟨h, kept c h known⟩

theorem Accurate.ensureFacts (accurate : s.Accurate columns) (reached : s.plan.Reaches id)
    (done : s.ensureFacts id = .ok s') : s'.Accurate columns ∧ s.Grows s' columns ∧
      ∃ facts, s'.context.facts.get? id = some facts :=
  accurate.ensureFactsWithin reached done

end Session

end QueryOptimizer
