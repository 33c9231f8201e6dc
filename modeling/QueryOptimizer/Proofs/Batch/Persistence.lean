import Mathlib
import QueryOptimizer.Proofs.Batch.Assignment
import QueryOptimizer.Proofs.Implementation.JoinKeys

/-! # Choices that persist

The algorithm of a node depends on its operator and hints, on the columns of its inputs, on an estimated
size and on the configuration. As long as these stay, the same algorithm is chosen again, and the choice
leaves the plan as it is, unless a join exchanges its sides.
-/

namespace QueryOptimizer

theorem JoinKeys.ofCondition?_congr {condition : Expr} {ls ls' rs rs' : List Var}
    (lefts : SameVars ls ls') (rights : SameVars rs rs') :
    ofCondition? condition ls rs = ofCondition? condition ls' rs' := by
  have orient : ∀ equality, orient? ls rs equality = orient? ls' rs' equality := by
    intro equality
    unfold orient?
    simp only [lefts _, rights _]
  have add : addConjunct? ls rs = addConjunct? ls' rs' := by
    funext keys conjunct
    unfold addConjunct?
    simp only [orient]
  unfold ofCondition?
  rw [add]

namespace Plan

variable {plan plan' : Plan} {n : NodeId}

/-- Whether a join is to exchange its sides: its condition equates them, and the left one is to be
    broadcast. -/
def Exchanging (plan : Plan) (n : NodeId) : Prop :=
  ∃ kind condition left right ls rs, plan.operator n = .join kind condition ∧
    plan.inputs n = [left, right] ∧ plan.schema left = .ok ls ∧ plan.schema right = .ok rs ∧
    plan.Exchanges n kind condition ∧ condition.conjuncts ≠ [] ∧
    ∀ c ∈ condition.conjuncts, c.EquatesSides ls rs

/-- Whether a node is inside a nested plan. -/
def InNested (plan : Plan) (n : NodeId) : Prop :=
  ∃ owner root, plan.Reaches owner ∧ root ∈ plan.nestedRoots owner ∧ plan.Below root n

theorem mem_nestedNodes_iff : n ∈ plan.nestedNodes ↔ plan.InNested n := by
  constructor
  · intro member
    refine List.foldlRecOn (motive := fun walk : Walk => ∀ n ∈ walk.entered, plan.InNested n)
      (plan.reachable.flatMap plan.nestedRoots) (Walk.visit plan.children (plan.nodes.length + 1))
      (fun _ impossible => by cases impossible) (fun walk before root isRoot => ?_) n member
    obtain ⟨owner, reached, isRoot⟩ := List.mem_flatMap.mp isRoot
    refine Walk.visit_of_closed (fun n ⟨owner, root, reached, isRoot, below⟩ child isChild =>
      ⟨owner, root, reached, isRoot, below.child isChild⟩) ?_ before
    exact ⟨owner, root, reaches_of_mem_reachable reached, isRoot, .refl⟩
  · rintro ⟨owner, root, reached, isRoot, below⟩
    exact (walkAlong_covers (List.mem_flatMap.mpr ⟨owner, mem_reachable reached, isRoot⟩) below).1

end Plan

namespace Session

variable {s s' t : Session} {columns : NodeId → VarSet} {id n : NodeId} {isNested : Bool}
  {physical : Physical} {size : Size}

/-- A session with notes and schemas that can be relied on, for a plan none of whose joins is to exchange
    its sides. -/
structure Steady (s : Session) (columns : NodeId → VarSet) : Prop where
  accurate : s.Accurate columns
  current : s.plan.SchemasCurrent
  sizes : s.SizesFound
  still : ∀ n, s.plan.Reaches n → ¬ s.plan.Exchanging n

/-- A session in which everything is the same that choices depend on. Group-bys whose facts are found keep
    their keys. -/
structure Later (s t : Session) (columns : NodeId → VarSet) : Prop where
  reaches : ∀ {n}, t.plan.Reaches n ↔ s.plan.Reaches n
  inputs : ∀ {n}, s.plan.Reaches n → t.plan.inputs n = s.plan.inputs n
  hints : ∀ {n}, s.plan.Reaches n → (t.plan.node n).hints = (s.plan.node n).hints
  operator : ∀ {n}, s.plan.Reaches n → (s.plan.operator n).Regroups (t.plan.operator n)
  used : ∀ {n facts}, s.plan.Reaches n → s.plan.Finds s.context.catalog columns n facts →
    t.plan.operator n = s.plan.operator n
  finds : ∀ {n facts}, s.plan.Reaches n → s.plan.Finds s.context.catalog columns n facts →
    t.plan.Finds t.context.catalog columns n facts
  sizes : ∀ {n size}, s.plan.Reaches n → s.plan.HasSize s.context.catalog n size →
    t.plan.HasSize t.context.catalog n size
  config : t.context.config = s.context.config

namespace Later

/-- A session about a plan that was regrouped. -/
theorem of_regrouped (regrouped : s.plan.Regrouped t.plan)
    (catalog : t.context.catalog = s.context.catalog)
    (used : ∀ n facts, s.plan.Finds s.context.catalog columns n facts →
      t.plan.operator n = s.plan.operator n)
    (config : t.context.config = s.context.config) : s.Later t columns where
  reaches := regrouped.redrawn.reaches_iff
  inputs _ := regrouped.inputs _
  hints _ := regrouped.hints _
  operator _ := regrouped.operator _
  used _ := used _ _
  finds _ finds := by
    rw [catalog]
    exact finds.regrouped regrouped used
  sizes _ sized := by
    rw [catalog]
    exact sized.regrouped regrouped
  config := config

theorem of_same (plan : t.plan = s.plan) (catalog : t.context.catalog = s.context.catalog)
    (config : t.context.config = s.context.config) : s.Later t columns :=
  of_regrouped (plan ▸ .refl _) catalog (fun _ _ _ => by rw [plan]) config

theorem trans {t' : Session} (first : s.Later t columns) (second : t.Later t' columns) :
    s.Later t' columns where
  reaches := second.reaches.trans first.reaches
  inputs reached := (second.inputs (first.reaches.mpr reached)).trans (first.inputs reached)
  hints reached := (second.hints (first.reaches.mpr reached)).trans (first.hints reached)
  operator reached := (first.operator reached).trans (second.operator (first.reaches.mpr reached))
  used reached finds :=
    (second.used (first.reaches.mpr reached) (first.finds reached finds)).trans (first.used reached finds)
  finds reached finds := second.finds (first.reaches.mpr reached) (first.finds reached finds)
  sizes reached sized := second.sizes (first.reaches.mpr reached) (first.sizes reached sized)
  config := second.config.trans first.config

variable (later : s.Later t columns) (reached : s.plan.Reaches n)

include later reached

theorem operator_eq (settled : s.Settled columns n) : t.plan.operator n = s.plan.operator n :=
  settled.operator_eq (later.operator reached) fun _ => later.used reached

theorem exchanges_iff {kind : JoinKind} {condition : Expr} :
    t.plan.Exchanges n kind condition ↔ s.plan.Exchanges n kind condition := by
  unfold Plan.Exchanges Plan.namedSide?
  rw [later.hints reached]

end Later

/-- Two schemas of a node have the same columns. -/
theorem Accurate.sameVars (accurate : s.Accurate columns) (accurate' : t.Accurate columns)
    (reached : s.plan.Reaches n) (reached' : t.plan.Reaches n) {vs ws : List Var}
    (stored : s.plan.schema n = .ok vs) (stored' : t.plan.schema n = .ok ws) : SameVars vs ws := by
  intro v
  exact (sameVars_of_ofList (accurate.stores n vs reached stored) v).trans
    (sameVars_of_ofList (accurate'.stores n ws reached' stored') v).symm

/-- What is still there can be relied on still. -/
theorem Steady.later (steady : s.Steady columns) (later : s.Later t columns)
    (accurate : t.Accurate columns) (current : t.plan.SchemasCurrent) (sizes : t.SizesFound) :
    t.Steady columns := by
  refine ⟨accurate, current, sizes, fun n reached' exchanging => ?_⟩
  obtain ⟨kind, condition, left, right, ls, rs, operator, inputs, storedLeft, storedRight, exchanges,
    some, equated⟩ := exchanging
  have reached := later.reaches.mp reached'
  have operator' : s.plan.operator n = .join kind condition := by
    have regroups := later.operator reached
    rw [operator] at regroups
    generalize s.plan.operator n = op at regroups
    cases regroups
    rfl
  have inputs' : s.plan.inputs n = [left, right] := (later.inputs reached).symm.trans inputs
  have same : ∀ {c vs}, c ∈ s.plan.inputs n → t.plan.schema c = .ok vs →
      ∃ ws, s.plan.schema c = .ok ws ∧ SameVars vs ws := by
    intro c vs member stored
    have reachedC := reached.input member
    obtain ⟨ws, stored', _⟩ := steady.current c reachedC
    exact ⟨ws, stored', accurate.sameVars steady.accurate (later.reaches.mpr reachedC) reachedC stored
      stored'⟩
  obtain ⟨ls', storedLeft', lefts⟩ := same (by simp [inputs']) storedLeft
  obtain ⟨rs', storedRight', rights⟩ := same (by simp [inputs']) storedRight
  refine steady.still n reached ⟨kind, condition, left, right, ls', rs', operator', inputs', storedLeft',
    storedRight', (later.exchanges_iff reached).mp exchanges, some, fun c member => ?_⟩
  obtain ⟨l, isLeft, r, isRight, equates⟩ := equated c member
  exact ⟨l, (lefts l).mp isLeft, r, (rights r).mp isRight, equates⟩

theorem SizesFound.later (found : s.SizesFound) (later : s.Later t columns)
    (sizes : t.context.sizes = s.context.sizes) : t.SizesFound := by
  intro n size reached noted
  have reached := later.reaches.mp reached
  exact later.sizes reached (found n size reached (sizes ▸ noted))

/-! ## Choices by size -/

/-- A choice by size notes sizes at most, and is the same later. -/
theorem Steady.bySize {algorithm : MemoryConfig → Size → Physical} (steady : s.Steady columns)
    (reached : s.plan.Reaches n) (done : s.bySize n algorithm = .ok (s', physical)) :
    s'.Steady columns ∧ (∃ table, s' = s.withSizes table) ∧ ∀ t, s.Later t columns → t.Steady columns →
      ∃ table, t.bySize n algorithm = .ok (t.withSizes table, physical) := by
  obtain ⟨⟨s₁, size⟩, estimated, done⟩ := bind_ok_iff.mp done
  cases pure_ok_iff.mp done
  obtain ⟨found, _, noted⟩ := steady.sizes.sizeWithin reached estimated
  obtain ⟨table, rfl⟩ := sizeWithin_frame estimated
  have sized : s.plan.HasSize s.context.catalog n size := found n size reached noted
  refine ⟨steady.later (.of_same rfl rfl rfl) (steady.accurate.withSizes table) steady.current found,
    ⟨table, rfl⟩, fun t later steady' => ?_⟩
  obtain ⟨rank, falls, low⟩ := steady'.accurate.wellFormed.exists_height
  obtain ⟨t', estimated'⟩ := steady'.sizes.exists_sizeWithin falls (later.reaches.mpr reached)
    (later.sizes reached sized) (Nat.lt_succ_of_le (low n))
  obtain ⟨table', rfl⟩ := sizeWithin_frame estimated'
  refine ⟨table', bind_ok_iff.mpr ⟨_, estimated', ?_⟩⟩
  have config : (t.withSizes table').context.config = (s.withSizes table).context.config := later.config
  rw [← config]
  rfl

/-- Steady joins keep their sides. -/
theorem Steady.chooseJoin_eq {kind : JoinKind} {condition : Expr} {left right : NodeId} {ls rs : List Var}
    (steady : s.Steady columns) (reached : s.plan.Reaches id)
    (operator : s.plan.operator id = .join kind condition) (sides : s.plan.inputs id = [left, right])
    (leftColumns : s.plan.schema left = .ok ls) (rightColumns : s.plan.schema right = .ok rs) :
    s.chooseJoin id = match JoinKeys.ofCondition? condition ls rs with
      | none => .ok (s, .nestedLoopJoin kind)
      | some keys => s.bySize right (HashJoin.mk kind
          (if s.plan.namedSide? id condition = some .right then .broadcast else .pairwise) keys.left
          keys.right).algorithm := by
  rcases JoinKeys.ofCondition?_cases condition ls rs with
    ⟨_, keyless⟩ | ⟨equated, pairs, _, _, keys⟩
  · rw [chooseJoin_of_columns operator sides leftColumns rightColumns, keyless]
  · rw [chooseJoin_of_keys operator sides leftColumns rightColumns keys, keys, if_neg fun exchanges =>
      steady.still id reached ⟨kind, condition, left, right, ls, rs, operator, sides, leftColumns,
        rightColumns, exchanges, equated⟩]

theorem Steady.chooseJoin (steady : s.Steady columns) (reached : s.plan.Reaches id)
    {kind : JoinKind} {condition : Expr} (operator : s.plan.operator id = .join kind condition)
    (done : s.chooseJoin id = .ok (s', physical)) :
    s'.Steady columns ∧ (∃ table, s' = s.withSizes table) ∧ ∀ t, s.Later t columns → t.Steady columns →
      ∃ table, t.chooseJoin id = .ok (t.withSizes table, physical) := by
  obtain ⟨left, right, sides⟩ := steady.accurate.wellFormed.inputs_pair reached (by rw [operator]; rfl)
  have isLeft : left ∈ s.plan.inputs id := by simp [sides]
  have isRight : right ∈ s.plan.inputs id := by simp [sides]
  obtain ⟨ls, storedLeft, _⟩ := steady.current left (reached.input isLeft)
  obtain ⟨rs, storedRight, _⟩ := steady.current right (reached.input isRight)
  rw [steady.chooseJoin_eq reached operator sides storedLeft storedRight] at done
  -- A later session has the same keys, and thus the same equation.
  have later_eq : ∀ t, s.Later t columns → t.Steady columns → t.chooseJoin id =
      match JoinKeys.ofCondition? condition ls rs with
      | none => .ok (t, .nestedLoopJoin kind)
      | some keys => t.bySize right (HashJoin.mk kind
          (if s.plan.namedSide? id condition = some .right then .broadcast else .pairwise) keys.left
          keys.right).algorithm := by
    intro t later steady'
    have reached' := later.reaches.mpr reached
    have settled : s.Settled columns id := fun keys decor nested shape => by
      cases operator.symm.trans shape
    have sides' := (later.inputs reached).trans sides
    obtain ⟨ls', storedLeft', _⟩ := steady'.current left (reached'.input (by simp [sides']))
    obtain ⟨rs', storedRight', _⟩ := steady'.current right (reached'.input (by simp [sides']))
    have lefts := steady.accurate.sameVars steady'.accurate (reached.input isLeft)
      (reached'.input (by simp [sides'])) storedLeft storedLeft'
    have rights := steady.accurate.sameVars steady'.accurate (reached.input isRight)
      (reached'.input (by simp [sides'])) storedRight storedRight'
    rw [steady'.chooseJoin_eq reached' ((later.operator_eq reached settled).trans operator) sides'
      storedLeft' storedRight', JoinKeys.ofCondition?_congr lefts rights]
    unfold Plan.namedSide?
    rw [later.hints reached]
  cases keys : JoinKeys.ofCondition? condition ls rs with
  | none =>
    simp only [keys] at done later_eq
    cases done
    exact ⟨steady, ⟨s.context.sizes, rfl⟩, fun t later steady' =>
      ⟨t.context.sizes, later_eq t later steady'⟩⟩
  | some keys' =>
    simp only [keys] at done later_eq
    obtain ⟨steady', noted, again⟩ := steady.bySize (reached.input isRight) done
    refine ⟨steady', noted, fun t later steady' => ?_⟩
    rw [later_eq t later steady']
    exact again t later steady'

/-- The algorithm for a sort of an input of the given size. -/
def sortAlgorithm (order : List OrderColumn) (isNested : Bool) (memory : MemoryConfig) (size : Size) :
    Physical :=
  if isNested || ((size.frames? memory).map memory.fitsSort).getD false then .inMemorySort order
  else .stableSort order

theorem chooseSort_eq (input : NodeId) (order : List OrderColumn) (isNested : Bool) :
    s.chooseSort input order isNested = s.bySize input (sortAlgorithm order isNested) := by
  unfold chooseSort Session.bySize frames?
  cases s.size input with
  | error e => rfl
  | ok result => exact (apply_ite (fun physical => Except.ok (result.1, physical)) _ _ _).symm

/-! ## Choices for all operators -/

/-- Whether the same algorithm is chosen for a node later, and the plan stays. -/
def Persists (s : Session) (columns : NodeId → VarSet) (n : NodeId) (isNested : Bool)
    (physical : Physical) : Prop :=
  ∀ t, s.Later t columns → t.Steady columns →
    ∃ t', t.physicalFor n isNested = .ok (t', physical) ∧ t'.plan = t.plan

theorem Persists.later (persists : s.Persists columns n isNested physical) (later : s.Later t columns) :
    t.Persists columns n isNested physical :=
  fun t' later' => persists t' (later.trans later')

/-- The algorithm of a group-by is chosen after its facts were derived. -/
theorem Steady.physicalFor_groupBy {keys decor : List (Var × Expr)} {nested : NestedPlans}
    (steady : s.Steady columns) (reached : s.plan.Reaches id)
    (operator : s.plan.operator id = .groupBy keys decor nested)
    (done : s.physicalFor id isNested = .ok (s', physical)) :
    s'.Steady columns ∧ s.plan.Regrouped s'.plan ∧ s.Later s' columns ∧
      s'.Persists columns id isNested physical ∧
      ∀ n, (s'.plan.node n).physical = (s.plan.node n).physical := by
  simp only [Session.physicalFor, operator] at done
  obtain ⟨s₁, derived, done⟩ := bind_ok_iff.mp done
  obtain ⟨accurate, grows, facts, noted⟩ := steady.accurate.ensureFacts reached derived
  have regrouped := grows.regrouped
  have reached₁ := regrouped.redrawn.reaches_iff.mpr reached
  have finds := accurate.found id facts reached₁ noted
  have regroups := regrouped.operator id
  rw [operator] at regroups
  obtain ⟨keys₁, decor₁, operator₁, _⟩ := regroups.of_groupBy
  simp only [operator₁] at done
  obtain ⟨keyColumns, keysFound, done⟩ := bind_ok_iff.mp done
  obtain ⟨decorColumns, decorFound, done⟩ := bind_ok_iff.mp done
  have chosen : s' = s₁ ∧ physical = if ((s₁.plan.node id).hints.get? "hash-group-by").isSome
      then .externalGroupBy keyColumns decorColumns else .preclusteredGroupBy keyColumns decorColumns := by
    split at done <;> cases pure_ok_iff.mp done
    · exact ⟨rfl, (if_pos ‹_›).symm⟩
    · exact ⟨rfl, (if_neg ‹_›).symm⟩
  obtain ⟨rfl, rfl⟩ := chosen
  have later : s.Later s' columns := by
    obtain ⟨plan, table, rfl, _⟩ := grows.derives
    exact .of_regrouped regrouped rfl grows.used rfl
  have sizes : s'.SizesFound := by
    refine steady.sizes.later later ?_
    obtain ⟨plan, table, rfl, _⟩ := grows.derives
    rfl
  refine ⟨steady.later later accurate (grows.current steady.current) sizes, regrouped, later, ?_,
    grows.physical⟩
  intro t later' steadyT
  have reachedT := later'.reaches.mpr reached₁
  have operatorT := (later'.used reached₁ finds).trans operator₁
  have schemas : t.plan.HasSchemas := fun n reached => by
    obtain ⟨vs, stored, _⟩ := steadyT.current n reached
    exact ⟨vs, stored⟩
  obtain ⟨rank, falls, low⟩ := steadyT.accurate.wellFormed.exists_height
  obtain ⟨t', derivedT, plan⟩ := steadyT.accurate.exists_ensureFactsWithin schemas falls reachedT
    (later'.finds reached₁ finds) (Nat.lt_succ_of_le (low id))
  have derivedT : t.ensureFacts id = .ok t' := derivedT
  refine ⟨t', ?_, plan⟩
  rw [← later'.hints reached₁, ← plan]
  rw [← plan] at operatorT
  simp only [Session.physicalFor, plan ▸ operatorT]
  refine bind_ok_iff.mpr ⟨t', derivedT, ?_⟩
  simp only [operatorT]
  refine bind_ok_iff.mpr ⟨_, keysFound, bind_ok_iff.mpr ⟨_, decorFound, ?_⟩⟩
  split <;> rfl

/-- A choice derives something and leaves algorithms alone. The same algorithm is chosen later. -/
theorem Steady.physicalFor (steady : s.Steady columns) (reached : s.plan.Reaches id)
    (done : s.physicalFor id isNested = .ok (s', physical)) :
    s'.Steady columns ∧ s.plan.Regrouped s'.plan ∧ s.Later s' columns ∧
      s'.Persists columns id isNested physical ∧
      ∀ n, (s'.plan.node n).physical = (s.plan.node n).physical := by
  by_cases isGroup : ∃ keys decor nested, s.plan.operator id = .groupBy keys decor nested
  · obtain ⟨keys, decor, nested, operator⟩ := isGroup
    exact steady.physicalFor_groupBy reached operator done
  have settled : s.Settled columns id := fun keys decor nested shape =>
    absurd ⟨keys, decor, nested, shape⟩ isGroup
  -- Sizes may be noted. It is enough to choose again on the plan as it is.
  suffices again : s'.Steady columns ∧ (∃ table, s' = s.withSizes table) ∧
      ∀ t, s.Later t columns → t.Steady columns →
        ∃ table, t.physicalFor id isNested = .ok (t.withSizes table, physical) by
    obtain ⟨steady', ⟨table, rfl⟩, again⟩ := again
    have later : s.Later (s.withSizes table) columns := .of_same rfl rfl rfl
    refine ⟨steady', .refl _, later, fun t later' steadyT => ?_, fun _ => rfl⟩
    obtain ⟨table', chosen⟩ := again t (later.trans later') steadyT
    exact ⟨_, chosen, rfl⟩
  have operator_eq : ∀ t, s.Later t columns → t.plan.operator id = s.plan.operator id :=
    fun t later => later.operator_eq reached settled
  cases operator : s.plan.operator id with
  | groupBy keys decor nested => exact absurd ⟨keys, decor, nested, operator⟩ isGroup
  | join kind condition =>
    have isJoin : ∀ {t : Session}, t.plan.operator id = .join kind condition →
        t.physicalFor id isNested = t.chooseJoin id := by
      intro t operator
      simp only [Session.physicalFor, operator, pure_bind]
    rw [isJoin operator] at done
    obtain ⟨steady', noted, again⟩ := steady.chooseJoin reached operator done
    refine ⟨steady', noted, fun t later steadyT => ?_⟩
    rw [isJoin ((operator_eq t later).trans operator)]
    exact again t later steadyT
  | order sorted top =>
    obtain ⟨input, inputs⟩ := List.length_eq_one_iff.mp
      ((steady.accurate.wellFormed.arity id reached).trans (by rw [operator]; rfl))
    cases found : (Operator.order sorted top).orderColumns? with
    | none =>
      simp only [Session.physicalFor, operator, pure_bind, found] at done
      cases done
    | some order =>
      have isOrder : ∀ {t : Session}, t.plan.operator id = .order sorted top →
          t.plan.inputs id = [input] →
          t.physicalFor id isNested = t.bySize input (sortAlgorithm order isNested) := by
        intro t operator inputs
        have isInput : t.plan.input id 0 = .ok input := Plan.input_ok_iff.mpr (by rw [inputs]; rfl)
        simp only [Session.physicalFor, operator, pure_bind, chooseSort_eq, isInput, found]
        rfl
      rw [isOrder operator inputs] at done
      obtain ⟨steady', noted, again⟩ :=
        steady.bySize (reached.input (inputs ▸ List.mem_cons_self)) done
      refine ⟨steady', noted, fun t later steadyT => ?_⟩
      rw [isOrder ((operator_eq t later).trans operator) ((later.inputs reached).trans inputs)]
      exact again t later steadyT
  | insertDelete change dataset payload keys =>
    simp only [Session.physicalFor, operator, pure_bind] at done
    obtain ⟨keys', found, done⟩ := bind_ok_iff.mp done
    cases pure_ok_iff.mp done
    refine ⟨steady, ⟨s.context.sizes, rfl⟩, fun t later _ => ⟨t.context.sizes, ?_⟩⟩
    simp only [Session.physicalFor, operator_eq t later, operator, pure_bind, found]
    rfl
  | _ =>
    simp only [Session.physicalFor, operator, pure_bind] at done
    cases pure_ok_iff.mp done
    refine ⟨steady, ⟨s.context.sizes, rfl⟩, fun t later _ => ⟨t.context.sizes, ?_⟩⟩
    simp only [Session.physicalFor, operator_eq t later, operator, pure_bind]
    rfl

end Session

end QueryOptimizer
