import Mathlib
import QueryOptimizer.Proofs.Derivation.Bounded
import QueryOptimizer.Proofs.Implementation.Choice
import QueryOptimizer.Proofs.Relational.Conditions

/-! # Hash joins do what their conditions say

A condition whose conjuncts all equate a variable of the left side with one of the right side is
implemented by a hash join on these variables, any other condition by a nested loop. The side that a hint
names becomes the right one, if the join may exchange its sides.
-/

namespace QueryOptimizer

/-- Whether an expression says that two variables are equal, in either order. -/
def Expr.Equates (e : Expr) (v w : Var) : Prop :=
  ∃ hints, e = .call .eq [.var v, .var w] hints ∨ e = .call .eq [.var w, .var v] hints

/-- Whether an expression says that a variable of the left side equals one of the right side. -/
def Expr.EquatesSides (left right : List Var) (e : Expr) : Prop :=
  ∃ l ∈ left, ∃ r ∈ right, e.Equates l r

/-- The side that a conjunct asks to broadcast. -/
def Expr.namedSide? (e : Expr) : Option JoinSide := (e.hint? "broadcast").bind JoinSide.ofHint?

/-- The side of a join that is to be broadcast: the one that the last conjunct names that names one,
    or else the one that the node names. -/
def Plan.namedSide? (plan : Plan) (id : NodeId) (condition : Expr) : Option JoinSide :=
  (condition.conjuncts.filterMap Expr.namedSide?).getLast?.or
    (((plan.node id).hints.get? "broadcast-side").bind JoinSide.ofHint?)

/-- Whether the sides of a join are to change places: those of an inner join are if its left side is to
    be broadcast. -/
def Plan.Exchanges (plan : Plan) (id : NodeId) (kind : JoinKind) (condition : Expr) : Prop :=
  kind = .inner ∧ plan.namedSide? id condition = some .left

instance (plan : Plan) (id : NodeId) (kind : JoinKind) (condition : Expr) :
    Decidable (plan.Exchanges id kind condition) :=
  inferInstanceAs (Decidable (kind = .inner ∧ plan.namedSide? id condition = some .left))

/-! ## Keys -/

namespace JoinKeys

variable {left right : List Var} {keys keys' : JoinKeys} {conjunct condition : Expr}
  {conjuncts : List Expr}

theorem addConjunct?_some (added : addConjunct? left right keys conjunct = some keys') :
    ∃ l ∈ left, ∃ r ∈ right, conjunct.Equates l r ∧
      keys' = ⟨keys.left ++ [l], keys.right ++ [r], conjunct.namedSide?.or keys.broadcast⟩ := by
  obtain ⟨⟨a, b⟩, equality, added⟩ := Option.bind_eq_some_iff.mp added
  obtain ⟨⟨l, r⟩, oriented, added⟩ := Option.bind_eq_some_iff.mp added
  cases added
  have shape : ∃ hints, conjunct = .call .eq [.var a, .var b] hints := by
    unfold Expr.variableEquality? at equality
    split at equality
    · cases equality
      exact ⟨_, rfl⟩
    · cases equality
  obtain ⟨hints, rfl⟩ := shape
  unfold orient? at oriented
  dsimp only at oriented
  split at oriented
  · rename_i sides
    cases oriented
    exact ⟨a, sides.1, b, sides.2, ⟨hints, .inl rfl⟩, rfl⟩
  · split at oriented
    · rename_i sides
      cases oriented
      exact ⟨b, sides.1, a, sides.2, ⟨hints, .inr rfl⟩, rfl⟩
    · cases oriented

theorem exists_addConjunct? (equates : conjunct.EquatesSides left right) (keys : JoinKeys) :
    ∃ keys', addConjunct? left right keys conjunct = some keys' := by
  obtain ⟨l, isLeft, r, isRight, hints, rfl | rfl⟩ := equates
  · exact ⟨_, by simp [addConjunct?, Expr.variableEquality?, orient?, isLeft, isRight]; rfl⟩
  · by_cases other : r ∈ left ∧ l ∈ right
    · exact ⟨_, by simp [addConjunct?, Expr.variableEquality?, orient?, other]; rfl⟩
    · exact ⟨_, by simp [addConjunct?, Expr.variableEquality?, orient?, other, isLeft, isRight]; rfl⟩

/-- Whether each conjunct equates the variables of a pair, the first one of the left side. -/
def Match (left right : List Var) : List Expr → List (Var × Var) → Prop :=
  List.Forall₂ fun c p => p.1 ∈ left ∧ p.2 ∈ right ∧ c.Equates p.1 p.2

/-- The keys of some conjuncts are the variables that they equate, pair by pair. -/
theorem foldlM_some (found : conjuncts.foldlM (addConjunct? left right) keys = some keys') :
    ∃ pairs, Match left right conjuncts pairs ∧ keys' = ⟨keys.left ++ pairs.map (·.1),
      keys.right ++ pairs.map (·.2), (conjuncts.filterMap Expr.namedSide?).getLast?.or keys.broadcast⟩ := by
  induction conjuncts generalizing keys with
  | nil =>
    cases found
    exact ⟨[], .nil, by simp⟩
  | cons conjunct conjuncts ih =>
    rw [List.foldlM_cons] at found
    obtain ⟨next, added, found⟩ := Option.bind_eq_some_iff.mp found
    obtain ⟨l, isLeft, r, isRight, equates, rfl⟩ := addConjunct?_some added
    obtain ⟨pairs, matched, rfl⟩ := ih found
    have named : (conjuncts.filterMap Expr.namedSide?).getLast?.or
        (conjunct.namedSide?.or keys.broadcast) =
        ((conjunct :: conjuncts).filterMap Expr.namedSide?).getLast?.or keys.broadcast := by
      rw [List.filterMap_cons]
      cases conjunct.namedSide? with
      | none => rfl
      | some side =>
        rw [List.getLast?_cons]
        cases (conjuncts.filterMap Expr.namedSide?).getLast? <;> rfl
    refine ⟨(l, r) :: pairs, .cons ⟨isLeft, isRight, equates⟩ matched, ?_⟩
    rw [← named]
    simp

theorem exists_foldlM (equate : ∀ c ∈ conjuncts, c.EquatesSides left right) (keys : JoinKeys) :
    ∃ keys', conjuncts.foldlM (addConjunct? left right) keys = some keys' := by
  induction conjuncts generalizing keys with
  | nil => exact ⟨keys, rfl⟩
  | cons conjunct conjuncts ih =>
    obtain ⟨next, added⟩ := exists_addConjunct? (equate conjunct List.mem_cons_self) keys
    obtain ⟨keys', found⟩ := ih (fun c member => equate c (List.mem_cons_of_mem _ member)) next
    exact ⟨keys', by rw [List.foldlM_cons, added]; exact found⟩

/-- A condition has keys unless it has no conjunct, or one that does not equate the two sides. The side
    to broadcast is the last one that is named. -/
theorem ofCondition?_cases (condition : Expr) (left right : List Var) :
    (condition.conjuncts = [] ∨ ∃ c ∈ condition.conjuncts, ¬ c.EquatesSides left right) ∧
        ofCondition? condition left right = none ∨
      (condition.conjuncts ≠ [] ∧ ∀ c ∈ condition.conjuncts, c.EquatesSides left right) ∧
        ∃ pairs, pairs ≠ [] ∧ Match left right condition.conjuncts pairs ∧
          ofCondition? condition left right = some ⟨pairs.map (·.1), pairs.map (·.2),
            (condition.conjuncts.filterMap Expr.namedSide?).getLast?⟩ := by
  unfold ofCondition?
  split
  · rename_i none
    exact .inl ⟨.inl none, rfl⟩
  rename_i conjuncts some
  by_cases equate : ∀ c ∈ condition.conjuncts, c.EquatesSides left right
  · obtain ⟨keys, found⟩ := exists_foldlM equate ⟨[], [], none⟩
    obtain ⟨pairs, matched, rfl⟩ := foldlM_some found
    refine .inr ⟨⟨some, equate⟩, pairs, ?_, matched, by simpa using found⟩
    rintro rfl
    exact some (List.eq_nil_of_length_eq_zero matched.length_eq)
  · refine .inl ⟨.inr ?_, ?_⟩
    · simpa using equate
    · refine Option.eq_none_iff_forall_ne_some.mpr fun keys found => equate fun c member => ?_
      obtain ⟨pairs, matched, _⟩ := foldlM_some found
      obtain ⟨p, _, isLeft, isRight, equates⟩ := Plan.exists_replacing matched member
      exact ⟨p.1, isLeft, p.2, isRight, equates⟩

end JoinKeys

/-! ## What keys say -/

section

variable {I : Interpretation} {t u : Tuple} {v w : Var} {condition : Expr} {left right : List Var}
  {conjuncts : List Expr} {pairs : List (Var × Var)}

/-- Whether two variables have one value in two tuples, which equals itself. -/
def Interpretation.Agree (I : Interpretation) (t u : Tuple) (v w : Var) : Prop :=
  ∃ x, t v = some x ∧ u w = some x ∧ I.returns .eq [x, x] (.boolean true)

theorem Expr.evaluates_eq_iff {hints : Hints} :
    (Expr.call .eq [.var v, .var w] hints).Evaluates I t (.boolean true) ↔ I.Agree t t v w := by
  constructor
  · rintro ⟨_, ⟨x, _, rfl, first, y, _, rfl, second, rfl⟩, result⟩
    obtain rfl := I.eq_identical result
    exact ⟨x, first, second, result⟩
  · rintro ⟨x, first, second, result⟩
    exact ⟨[x, x], ⟨x, [x], rfl, first, x, [], rfl, second, rfl⟩, result⟩

theorem Expr.Equates.evaluates_iff {e : Expr} (equates : e.Equates v w) :
    e.Evaluates I t (.boolean true) ↔ I.Agree t t v w := by
  obtain ⟨hints, rfl | rfl⟩ := equates
  · exact evaluates_eq_iff
  · rw [evaluates_eq_iff]
    exact ⟨fun ⟨x, first, second, result⟩ => ⟨x, second, first, result⟩,
      fun ⟨x, first, second, result⟩ => ⟨x, second, first, result⟩⟩

/-- A condition is true if all its conjuncts are. -/
theorem Expr.evaluates_iff_conjuncts (lawful : I.Lawful) :
    condition.Evaluates I t (.boolean true) ↔
      ∀ c ∈ condition.conjuncts, c.Evaluates I t (.boolean true) := by
  refine ⟨fun holds c member => holds.conjunct member, fun all => ?_⟩
  have fills : t.Fills condition.occurrences := by
    intro v occurs
    rw [← occurrencesList_conjuncts, occurrencesList_eq] at occurs
    obtain ⟨c, member, occurs⟩ := List.mem_flatMap.mp occurs
    exact (all c member).defined v occurs
  refine verdict_true_iff.mp ((verdict_iff_conjuncts lawful fills).mpr ?_)
  exact verdictOfAll_true_iff.mpr fun c member => verdict_true_iff.mpr (all c member)

/-- A pair of tuples meets a condition exactly if it agrees on the keys. -/
theorem JoinKeys.Match.evaluates_iff (matched : Match left right condition.conjuncts pairs)
    (disjoint : left.Disjoint right) (lawful : I.Lawful) :
    condition.Evaluates I (Tuple.join left t u) (.boolean true) ↔ ∀ p ∈ pairs, I.Agree t u p.1 p.2 := by
  rw [Expr.evaluates_iff_conjuncts lawful]
  have each : List.Forall₂ (fun c p => c.Evaluates I (Tuple.join left t u) (.boolean true) ↔
      I.Agree t u p.1 p.2) condition.conjuncts pairs := by
    refine matched.imp fun c p ⟨isLeft, isRight, equates⟩ => ?_
    rw [equates.evaluates_iff, Interpretation.Agree, Tuple.join_of_mem isLeft,
      Tuple.join_of_not_mem (disjoint.symm isRight)]
    rfl
  clear matched
  generalize condition.conjuncts = conjuncts at each ⊢
  induction each with
  | nil => simp
  | cons first _ ih => simp only [List.forall_mem_cons, first, ih]

theorem JoinKeys.Match.swap (matched : Match left right conjuncts pairs) :
    Match right left conjuncts (pairs.map Prod.swap) :=
  List.forall₂_map_right_iff.mpr (matched.imp fun _ _ ⟨isLeft, isRight, hints, equates⟩ =>
    ⟨isRight, isLeft, hints, equates.symm⟩)

/-- Whether a hash join does what a join of the given kind on a condition does, for inputs with the given
    columns. -/
structure HashJoin.Implements (join : HashJoin) (kind : JoinKind) (condition : Expr)
    (left right : List Var) : Prop where
  kind : join.kind = kind
  keyed : join.leftKeys ≠ []
  paired : join.leftKeys.length = join.rightKeys.length
  leftKeys : join.leftKeys ⊆ left
  rightKeys : join.rightKeys ⊆ right
  agree : ∀ I : Interpretation, I.Lawful → ∀ t u : Tuple,
    condition.Evaluates I (Tuple.join left t u) (.boolean true) ↔
      ∀ p ∈ join.leftKeys.zip join.rightKeys, I.Agree t u p.1 p.2

theorem JoinKeys.Match.implements {kind : JoinKind} {sides : JoinSides}
    (matched : Match left right condition.conjuncts pairs) (some : pairs ≠ [])
    (disjoint : left.Disjoint right) :
    (HashJoin.mk kind sides (pairs.map (·.1)) (pairs.map (·.2))).Implements kind condition left right where
  kind := rfl
  keyed := by simpa using some
  paired := by simp
  leftKeys := by
    intro v member
    obtain ⟨p, isPair, rfl⟩ := List.mem_map.mp member
    obtain ⟨c, _, isLeft, _, _⟩ := Plan.exists_replaced matched isPair
    exact isLeft
  rightKeys := by
    intro v member
    obtain ⟨p, isPair, rfl⟩ := List.mem_map.mp member
    obtain ⟨c, _, _, isRight, _⟩ := Plan.exists_replaced matched isPair
    exact isRight
  agree I lawful t u := by
    rw [matched.evaluates_iff disjoint lawful]
    show _ ↔ ∀ p ∈ (pairs.map Prod.fst).zip (pairs.map Prod.snd), _
    rw [← List.unzip_fst, ← List.unzip_snd, List.zip_unzip]

end

/-- The algorithm for a hash join whose table is built over an input of the given size. -/
def HashJoin.algorithm (join : HashJoin) (memory : MemoryConfig) (size : Size) : Physical :=
  if ((size.frames? memory).map memory.fitsJoin).getD false then .inMemoryHashJoin join
  else .hybridHashJoin join

theorem HashJoin.algorithm_cases (join : HashJoin) (memory : MemoryConfig) (size : Size) :
    join.algorithm memory size = .inMemoryHashJoin join ∨ join.algorithm memory size = .hybridHashJoin join := by
  unfold algorithm
  split
  · exact .inl rfl
  · exact .inr rfl

/-! ## Estimates on redrawn plans -/

/-- Two folds go side by side if their steps do. -/
theorem foldlM_map_of_step {ε α β γ : Type} (P : β → Prop) (g : β → γ) {f : β → α → Except ε β}
    {h : γ → α → Except ε γ} {l : List α} {b : β}
    (step : ∀ a ∈ l, ∀ c, P c → h (g c) a = (f c a).map g)
    (keep : ∀ a ∈ l, ∀ c c', P c → f c a = .ok c' → P c') (start : P b) :
    l.foldlM h (g b) = (l.foldlM f b).map g := by
  induction l generalizing b with
  | nil => rfl
  | cons a l ih =>
    rw [List.foldlM_cons, List.foldlM_cons, step a List.mem_cons_self b start]
    cases next : f b a with
    | error e => rfl
    | ok c =>
      exact ih (fun a member => step a (List.mem_cons_of_mem _ member))
        (fun a member => keep a (List.mem_cons_of_mem _ member))
        (keep a List.mem_cons_self b c start next)

namespace Session

variable {s s' : Session} {id : NodeId} {plan : Plan}

/-- Estimates one more input. -/
def sizeNext (fuel : Nat) (acc : Session × List Size) (n : NodeId) :
    Except Failure (Session × List Size) := do
  let (t, size) ← sizeWithin fuel acc.1 n
  return (t, acc.2 ++ [size])

theorem sizeNext_plan {fuel : Nat} {acc acc' : Session × List Size} {n : NodeId}
    (step : sizeNext fuel acc n = .ok acc') : acc'.1.plan = acc.1.plan := by
  obtain ⟨⟨t, size⟩, estimated, step⟩ := bind_ok_iff.mp step
  cases pure_ok_iff.mp step
  obtain ⟨table, rfl⟩ := sizeWithin_frame estimated
  rfl

/-- An estimate reads nothing but what the node draws on. -/
theorem sizeWithin_withPlan {fuel : Nat}
    (same : ∀ n, s.plan.DrawsOn id n → plan.node n = s.plan.node n) :
    sizeWithin fuel (s.withPlan plan) id =
      (sizeWithin fuel s id).map fun result => (result.1.withPlan plan, result.2) := by
  induction fuel generalizing s id with
  | zero => rfl
  | succ fuel ih =>
    have here := same id .refl
    have inputs := Plan.inputs_congr here
    have operator : plan.operator id = s.plan.operator id := congrArg Node.operator here
    -- The inputs are estimated in sessions that have the plan still.
    have keep : ∀ n ∈ s.plan.inputs id, ∀ acc acc' : Session × List Size, acc.1.plan = s.plan →
        sizeNext fuel acc n = .ok acc' → acc'.1.plan = s.plan :=
      fun n _ acc acc' unchanged step => (sizeNext_plan step).trans unchanged
    have collected := foldlM_map_of_step (fun acc : Session × List Size => acc.1.plan = s.plan)
      (fun acc => (acc.1.withPlan plan, acc.2)) (b := (s, [])) (h := sizeNext fuel)
      (fun n member acc unchanged => by
        have drawn : ∀ m, acc.1.plan.DrawsOn n m → plan.node m = acc.1.plan.node m := by
          rw [unchanged]
          exact fun m draws => same m (.head member draws)
        unfold sizeNext
        rw [ih drawn]
        cases sizeWithin fuel acc.1 n <;> rfl) keep rfl
    unfold sizeWithin
    dsimp only [withPlan]
    cases s.context.sizes.get? id with
    | some size => rfl
    | none =>
      dsimp only
      rw [inputs]
      refine (congrArg (· >>= _) collected).trans ?_
      change ((s.plan.inputs id).foldlM (sizeNext fuel) (s, [])).map _ >>= _ =
        ((s.plan.inputs id).foldlM (sizeNext fuel) (s, []) >>= _).map _
      obtain ⟨found, isFound⟩ :
          ∃ found, (s.plan.inputs id).foldlM (sizeNext fuel) (s, []) = found := ⟨_, rfl⟩
      rw [isFound]
      cases found with
      | error e => rfl
      | ok result =>
        have unchanged : result.1.plan = s.plan :=
          foldlM_keeps (fun acc : Session × List Size => acc.1.plan = s.plan) keep rfl isFound
        have estimate : (result.1.withPlan plan).sizeFromInputs id result.2 =
            result.1.sizeFromInputs id result.2 := by
          unfold sizeFromInputs withPlan
          dsimp only
          rw [operator, unchanged]
        show (do
            let size ← (result.1.withPlan plan).sizeFromInputs id result.2
            pure ((result.1.withPlan plan).mapContext (·.setSize id size), size)) =
          (do
            let size ← result.1.sizeFromInputs id result.2
            pure (result.1.mapContext (·.setSize id size), size)).map _
        rw [estimate]
        cases result.1.sizeFromInputs id result.2 <;> rfl

/-- The size of a node that does not draw on a join is the same after the sides of the join changed
    places. -/
theorem size_swapInputs {n : NodeId} {i j : Nat} (swapped : s.plan.swapInputs id i j = .ok plan)
    (apart : ¬ s.plan.DrawsOn n id) :
    (s.withPlan plan).size n = (s.size n).map fun result => (result.1.withPlan plan, result.2) := by
  obtain ⟨left, _, swapped⟩ := bind_ok_iff.mp swapped
  obtain ⟨right, _, swapped⟩ := bind_ok_iff.mp swapped
  cases pure_ok_iff.mp swapped
  have depth : (s.withPlan ((s.plan.setInput id i right).setInput id j left)).depth = s.depth := by
    simp [Session.depth, withPlan, Plan.setInput, Plan.modify]
  unfold size
  rw [depth]
  refine sizeWithin_withPlan fun m draws => ?_
  have different : m ≠ id := fun same => apart (same ▸ draws)
  exact (Plan.node_modify_of_ne different).trans (Plan.node_modify_of_ne different)

/-- An algorithm that depends on the estimated size of a node. -/
def bySize (s : Session) (n : NodeId) (algorithm : MemoryConfig → Size → Physical) :
    Except Failure (Session × Physical) := do
  let (s, size) ← s.size n
  return (s, algorithm s.context.config.memory size)

theorem bySize_hashJoin (build : NodeId) (join : HashJoin) : s.bySize build join.algorithm = (do
    let (s, frames) ← s.frames? build
    if (frames.map s.context.config.memory.fitsJoin).getD false then
      return (s, .inMemoryHashJoin join)
    else return (s, .hybridHashJoin join)) := by
  unfold bySize frames?
  cases s.size build with
  | error e => rfl
  | ok result => exact apply_ite (fun physical => Except.ok (result.1, physical)) _ _ _

section

variable {kind : JoinKind} {condition : Expr} {left right : NodeId} {ls rs : List Var} {keys : JoinKeys}
  (operator : s.plan.operator id = .join kind condition) (sides : s.plan.inputs id = [left, right])
  (leftColumns : s.plan.schema left = .ok ls) (rightColumns : s.plan.schema right = .ok rs)

include operator sides leftColumns rightColumns

theorem chooseJoin_of_columns : s.chooseJoin id =
    (match JoinKeys.ofCondition? condition ls rs with
      | none => .ok (s, .nestedLoopJoin kind)
      | some keys =>
        let side := keys.broadcast.or (((s.plan.node id).hints.get? "broadcast-side").bind JoinSide.ofHint?)
        if kind = .inner ∧ side = some .left then do
          let plan ← s.plan.swapInputs id 0 1
          (s.withPlan plan).bySize (← plan.input id 1)
            (HashJoin.mk kind .broadcast keys.right keys.left).algorithm
        else s.bySize right (HashJoin.mk kind (if side = some .right then .broadcast else .pairwise)
          keys.left keys.right).algorithm) := by
  have isLeft : s.plan.input id 0 = .ok left := by rw [Plan.input_ok_iff, sides]; rfl
  have isRight : s.plan.input id 1 = .ok right := by rw [Plan.input_ok_iff, sides]; rfl
  have inner : ∀ {α β : Type} (a : α) (f : α → Except Failure β), (Except.ok a >>= f) = f a :=
    fun _ _ => rfl
  unfold chooseJoin
  rw [operator]
  simp only [isLeft, isRight, leftColumns, rightColumns, inner]
  cases JoinKeys.ofCondition? condition ls rs with
  | none => rfl
  | some keys =>
    dsimp only
    generalize keys.broadcast.or _ = side
    rcases side with _ | _ | _ <;> cases kind <;>
      simp only [pure_bind, isRight, inner, reduceCtorEq, and_false, and_true, and_self, if_true, if_false,
        bySize_hashJoin] <;>
      rfl

theorem chooseJoin_of_keys {leftKeys rightKeys : List Var}
    (keys : JoinKeys.ofCondition? condition ls rs =
      some ⟨leftKeys, rightKeys, (condition.conjuncts.filterMap Expr.namedSide?).getLast?⟩) :
    s.chooseJoin id =
      (if s.plan.Exchanges id kind condition then do
        let plan ← s.plan.swapInputs id 0 1
        (s.withPlan plan).bySize (← plan.input id 1)
          (HashJoin.mk kind .broadcast rightKeys leftKeys).algorithm
      else s.bySize right (HashJoin.mk kind
        (if s.plan.namedSide? id condition = some .right then .broadcast else .pairwise) leftKeys
        rightKeys).algorithm) := by
  rw [chooseJoin_of_columns operator sides leftColumns rightColumns, keys]
  rfl

end

/-- An estimate leaves the plan as it is, and only fails because of a number that is out of bounds. -/
theorem size_cases {n : NodeId} (wellFormed : s.plan.WellFormed) (reached : s.plan.Reaches n) :
    s.size n = .error .overflow ∨ ∃ table size, s.size n = .ok (s.withSizes table, size) := by
  obtain ⟨rank, falls, low⟩ := wellFormed.exists_height
  cases done : s.size n with
  | error e =>
    rw [sizeWithin_error falls reached (Nat.lt_succ_of_le (low n)) done]
    exact .inl rfl
  | ok result =>
    obtain ⟨table, same⟩ := sizeWithin_frame done
    exact .inr ⟨table, result.2, by rw [← same]⟩

/-- A join does not feed its inputs. -/
theorem not_drawsOn_of_input {plan : Plan} {n : NodeId} (wellFormed : plan.WellFormed)
    (reached : plan.Reaches id) (member : n ∈ plan.inputs id) : ¬ plan.DrawsOn n id := by
  obtain ⟨rank, falls⟩ := wellFormed.acyclic
  have lower := falls id reached n (Plan.mem_sources_of_input member)
  intro draws
  have below : ∀ m, plan.DrawsOn n m → rank m ≤ rank n ∧ plan.Reaches m := by
    intro m draws
    induction draws with
    | refl => exact ⟨le_rfl, reached.input member⟩
    | tail _ isInput ih =>
      have lower := falls _ ih.2 _ (Plan.mem_sources_of_input isInput)
      exact ⟨by omega, ih.2.input isInput⟩
  have := (below id draws).1
  omega

/-- The sides of a join can change places. They keep their columns and sizes. -/
theorem exists_swapInputs {left right : NodeId} (wellFormed : s.plan.WellFormed)
    (reached : s.plan.Reaches id) (sides : s.plan.inputs id = [left, right]) :
    ∃ plan, s.plan.swapInputs id 0 1 = .ok plan ∧ plan.inputs id = [right, left] ∧
      ∀ n ∈ s.plan.inputs id, (∀ vs, s.plan.schema n = .ok vs → plan.schema n = .ok vs) ∧
        (s.withPlan plan).size n =
          (s.size n).map fun result => (result.1.withPlan plan, result.2) := by
  have swapped : s.plan.swapInputs id 0 1 = .ok ((s.plan.setInput id 0 right).setInput id 1 left) := by
    unfold Plan.swapInputs
    rw [Plan.input_ok_iff.mpr (by rw [sides]; rfl), Plan.input_ok_iff.mpr (by rw [sides]; rfl)]
    rfl
  obtain ⟨_, inputs, others⟩ := Plan.Redrawn.swapInputs wellFormed reached sides swapped
  refine ⟨_, swapped, inputs, fun n member => ?_⟩
  have apart := not_drawsOn_of_input wellFormed reached member
  refine ⟨fun vs stored => ?_, size_swapInputs swapped apart⟩
  rw [Plan.schema_ok_iff] at stored ⊢
  rw [others n fun same => apart (same ▸ .refl), stored]

/-- A join whose condition does not equate its sides is a nested loop, and any other one a hash join on
    the variables that are equated, unless the input that the table is built over cannot be estimated.
    The sides of an inner join change places if the left one is to be broadcast. -/
theorem chooseJoin_matches_condition {kind : JoinKind} {condition : Expr} {left right : NodeId}
    {ls rs : List Var} (wellFormed : s.plan.WellFormed) (reached : s.plan.Reaches id)
    (operator : s.plan.operator id = .join kind condition) (sides : s.plan.inputs id = [left, right])
    (leftColumns : s.plan.schema left = .ok ls) (rightColumns : s.plan.schema right = .ok rs)
    (disjoint : ls.Disjoint rs) :
    (condition.conjuncts = [] ∨ ∃ c ∈ condition.conjuncts, ¬ c.EquatesSides ls rs) ∧
        s.chooseJoin id = .ok (s, .nestedLoopJoin kind) ∨
      (condition.conjuncts ≠ [] ∧ ∀ c ∈ condition.conjuncts, c.EquatesSides ls rs) ∧ left ≠ right ∧
        ∃ first second vs ws, (if s.plan.Exchanges id kind condition
            then ((first, vs), (second, ws)) = ((right, rs), (left, ls))
            else ((first, vs), (second, ws)) = ((left, ls), (right, rs))) ∧
          (s.size second = .error .overflow ∧ s.chooseJoin id = .error .overflow ∨
            ∃ s' physical join, s.chooseJoin id = .ok (s', physical) ∧
              (physical = .inMemoryHashJoin join ∨ physical = .hybridHashJoin join) ∧
              s'.plan.inputs id = [first, second] ∧ s'.plan.schema first = .ok vs ∧
              s'.plan.schema second = .ok ws ∧ join.Implements kind condition vs ws ∧
              (join.sides = .broadcast ↔ s.plan.Exchanges id kind condition ∨
                s.plan.namedSide? id condition = some .right)) := by
  rcases JoinKeys.ofCondition?_cases condition ls rs with
    ⟨unequated, keyless⟩ | ⟨equated, pairs, keyed, matched, keys⟩
  · refine .inl ⟨unequated, ?_⟩
    rw [chooseJoin_of_columns operator sides leftColumns rightColumns, keyless]
  refine .inr ⟨equated, ?_, ?_⟩
  · rintro rfl
    cases leftColumns.symm.trans rightColumns
    obtain ⟨c, _⟩ := List.exists_mem_of_ne_nil _ equated.1
    obtain ⟨l, isLeft, _⟩ := equated.2 c ‹_›
    exact disjoint isLeft isLeft
  have isLeft : left ∈ s.plan.inputs id := by simp [sides]
  have isRight : right ∈ s.plan.inputs id := by simp [sides]
  have chosen := chooseJoin_of_keys operator sides leftColumns rightColumns keys
  by_cases exchanges : s.plan.Exchanges id kind condition
  · -- The left input is to the right in the plan that the estimate is made on.
    obtain ⟨plan, swapped, inputs, same⟩ := exists_swapInputs wellFormed reached sides
    have isSecond : plan.input id 1 = .ok left := Plan.input_ok_iff.mpr (by rw [inputs]; rfl)
    rw [if_pos exchanges, swapped] at chosen
    replace chosen : s.chooseJoin id = (do (s.withPlan plan).bySize (← plan.input id 1) _) := chosen
    rw [isSecond] at chosen
    replace chosen : s.chooseJoin id = (s.withPlan plan).bySize left _ := chosen
    refine ⟨right, left, rs, ls, by rw [if_pos exchanges], ?_⟩
    unfold bySize at chosen
    rcases size_cases wellFormed (reached.input isLeft) with failed | ⟨table, estimate, done⟩
    · rw [(same left isLeft).2, failed] at chosen
      exact .inl ⟨failed, chosen⟩
    · rw [(same left isLeft).2, done] at chosen
      refine .inr ⟨_, _, _, chosen, HashJoin.algorithm_cases .., inputs,
        (same right isRight).1 rs rightColumns, (same left isLeft).1 ls leftColumns, ?_,
        by simp [exchanges]⟩
      have implements : HashJoin.Implements ⟨kind, .broadcast, _, _⟩ kind condition rs ls :=
        matched.swap.implements (by simpa using keyed) disjoint.symm
      rwa [List.map_map, List.map_map] at implements
  · rw [if_neg exchanges] at chosen
    refine ⟨left, right, ls, rs, by rw [if_neg exchanges], ?_⟩
    unfold bySize at chosen
    rcases size_cases wellFormed (reached.input isRight) with failed | ⟨table, estimate, done⟩
    · rw [failed] at chosen
      exact .inl ⟨failed, chosen⟩
    · rw [done] at chosen
      refine .inr ⟨_, _, _, chosen, HashJoin.algorithm_cases .., sides, leftColumns, rightColumns,
        matched.implements keyed disjoint, ?_⟩
      by_cases named : s.plan.namedSide? id condition = some .right <;> simp [named, exchanges]

/-- A join of a union with a source. The condition asks for the union to be broadcast. -/
def unionJoin : Plan where
  nodes := [
    some (.above .emptySource []),
    some { Node.above (.scan "A" [1]) [0] with schema := some [1] },
    some { Node.above (.scan "B" [2]) [0] with schema := some [2] },
    some { Node.above (.unionAll [⟨1, 2, 3⟩]) [1, 2] with schema := some [3] },
    some { Node.above (.scan "C" [4, 5]) [0] with schema := some [4, 5] },
    some { Node.above (.join .inner (.call .and [.call .eq [.var 4, .var 3] [],
        .call .eq [.var 3, .var 5] [("broadcast", "left")]] [])) [3, 4] with
      hints := [("broadcast-side", "right")] }]
  root := 5

theorem unionJoin_wellFormed : unionJoin.WellFormed :=
  .of_regular (.of_nodes ⟨by simp [unionJoin], by simp [unionJoin]⟩ rfl (by decide)) id (fun _ => [])
    (by decide) rfl

/-- The join, where each source of the union has the given number of rows. -/
def unionJoinOf (rows : Nat) : Session where
  plan := unionJoin
  context := { catalog := ⟨[
    { name := "A", columns := [("a", .integer .int64)], statistics := some ⟨rows, 8⟩ },
    { name := "B", columns := [("b", .integer .int64)], statistics := some ⟨rows, 8⟩ }]⟩ }

/-- The union becomes the right side, and the keys follow. -/
theorem chooseJoin_matches_condition_exchanged : ∃ s' join condition,
    unionJoin.operator 5 = .join .inner condition ∧
    (unionJoinOf 100).chooseJoin 5 = .ok (s', .inMemoryHashJoin join) ∧ s'.plan.inputs 5 = [4, 3] ∧
    join = ⟨.inner, .broadcast, [4, 5], [3, 3]⟩ ∧ join.Implements .inner condition [4, 5] [3] := by
  have run : ((unionJoinOf 100).chooseJoin 5).toOption.map (·.2) =
      some (.inMemoryHashJoin ⟨.inner, .broadcast, [4, 5], [3, 3]⟩) := by
    decide +kernel
  obtain ⟨⟨t, physical⟩, done, rfl⟩ := Option.map_eq_some_iff.mp run
  have done := toOption_eq_some_iff.mp done
  have sides : (unionJoinOf 100).plan.inputs 5 = [3, 4] := rfl
  rcases chooseJoin_matches_condition unionJoin_wellFormed .refl rfl sides rfl rfl (by simp) with
    ⟨_, loop⟩ | ⟨_, _, first, second, vs, ws, arranged, ⟨_, failed⟩ | ⟨s', physical, join, chosen, hash,
      inputs, _, _, implements, _⟩⟩
  · cases loop.symm.trans done
  · cases failed.symm.trans done
  · rw [if_pos (by decide)] at arranged
    cases arranged
    cases chosen.symm.trans done
    rcases hash with same | impossible
    · cases same
      exact ⟨_, _, _, rfl, done, inputs, rfl, implements⟩
    · cases impossible

/-- No join is chosen where the total of the union is out of bounds. -/
theorem chooseJoin_overflows : unionJoin.WellFormed ∧ (∃ condition,
    unionJoin.operator 5 = .join .inner condition ∧
      ∀ c ∈ condition.conjuncts, c.EquatesSides [3] [4, 5]) ∧
    (unionJoinOf (2 ^ 63)).chooseJoin 5 = .error .overflow := by
  refine ⟨unionJoin_wellFormed, ⟨_, rfl, fun c member => ?_⟩, rfl⟩
  change c ∈ [_, _] at member
  rcases List.mem_pair.mp member with rfl | rfl
  · exact ⟨3, by decide, 4, by decide, _, .inr rfl⟩
  · exact ⟨3, by decide, 5, by decide, _, .inl rfl⟩

end Session

end QueryOptimizer
