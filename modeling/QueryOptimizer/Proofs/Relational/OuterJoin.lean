import Mathlib
import QueryOptimizer.Proofs.Relational.Derivation

/-! # Facts of left outer joins

A left outer join yields pairs in which its condition is true, and tuples of the left side that are
padded with nulls. The classes that are derived for it are those of the left side, and are true. A
derived dependency is true between two pairs and between two padded tuples. Between a pair and a
padded tuple it may be false: the nulls on the right agree with nothing that the right side says
about its constants, and the left side of one equality does not tell whether there is a partner.
-/

namespace QueryOptimizer

/-- Variables that are listed with a value for each have these values. -/
theorem Tuple.lookup_zip_map {vs : List Var} {v : Var} (f : Var → Scalar) (member : v ∈ vs) :
    (vs.zip (vs.map f)).lookup v = some (f v) := by
  induction vs with
  | nil => cases member
  | cons w vs ih =>
    rw [List.map_cons, List.zip_cons_cons, List.lookup_cons]
    by_cases here : v = w
    · simp [here]
    · rw [beq_false_of_ne here]
      exact ih ((List.mem_cons.mp member).resolve_left here)

/-- Nulls for all variables. -/
def Tuple.nulls (vs : List Var) : Tuple := Tuple.empty.extend vs (vs.map fun _ => .null .null)

theorem Tuple.nulls_of_mem {vs : List Var} {v : Var} (member : v ∈ vs) :
    Tuple.nulls vs v = some (.null .null) := by
  rw [nulls, extend, lookup_zip_map _ member, Option.some_or]

/-- If no tuple is selected, a condition with one value is true in none. -/
theorem Selected.none_true {I : Interpretation} {condition : Expr} {ts : List Tuple}
    (selected : Selected I condition ts []) (deterministic : condition.isDeterministic = true) :
    ∀ t ∈ ts, ¬ condition.Evaluates I t (.boolean true) := by
  obtain ⟨verdicts, values, nothing⟩ := selected
  induction values with
  | nil => simp
  | @cons t x ts verdicts value _ ih =>
    by_cases isTrue : x = .boolean true
    · simp [isTrue] at nothing
    · intro u member holds
      rcases List.mem_cons.mp member with rfl | inside
      · exact isTrue (value.unique deterministic holds)
      · exact ih (by simpa [isTrue] using nothing) u inside holds

namespace Facts

/-- The facts that a left outer join gets from those of its inputs. -/
def leftOuter (left right : Facts) (condition : Expr) (columns : Nat → List Var) : Facts :=
  ⟨left.equivalence, left.dependencies ++ right.dependencies ++
    outerJoin condition (columns 0) (columns 1)⟩

theorem mem_leftOuter {left right : Facts} {condition : Expr} {columns : Nat → List Var}
    {d : Dependency} : d ∈ (leftOuter left right condition columns).dependencies ↔
      d ∈ left.dependencies ∨ d ∈ right.dependencies ∨
        d ∈ outerJoin condition (columns 0) (columns 1) := by
  simp [leftOuter]

theorem mem_outerJoin {condition : Expr} {left right : List Var} {d : Dependency}
    (member : d ∈ outerJoin condition left right) :
    ∃ c ∈ (Facts.empty.assume condition).equivalence.classes, (∃ v, v ∈ d.head) ∧
      (∀ v ∈ d.head, v ∈ c.members ∧ v ∈ left) ∧ ∀ v ∈ d.tail, v ∈ c.members ∧ v ∈ right := by
  obtain ⟨c, isClass, shape⟩ := List.mem_filterMap.mp member
  refine ⟨c, isClass, ?_⟩
  dsimp only at shape
  split at shape
  · cases shape
  · rename_i nonempty
    cases shape
    simp only [Bool.or_eq_true, not_or, VarSet.isEmpty_iff, not_forall, not_not] at nonempty
    exact ⟨nonempty.1, fun v inside => by simpa using inside, fun v inside => by simpa using inside⟩

end Facts

namespace OuterJoin

variable {I : Interpretation} {columns : Nat → List Var} {ins : Nat → List Tuple} {condition : Expr}
  {out : List Tuple} {left right : Facts} {o o' : Tuple} {d : Dependency}

/-- Whether a tuple is a pair in which the condition is true. -/
def IsPair (I : Interpretation) (columns : Nat → List Var) (ins : Nat → List Tuple)
    (condition : Expr) (o : Tuple) : Prop :=
  ∃ t ∈ ins 0, ∃ u ∈ ins 1, o = Tuple.join (columns 0) t u ∧ condition.Evaluates I o (.boolean true)

/-- Whether a tuple is one of the left side without a partner, padded with nulls. -/
def IsPadded (I : Interpretation) (columns : Nat → List Var) (ins : Nat → List Tuple)
    (condition : Expr) (o : Tuple) : Prop :=
  ∃ t ∈ ins 0, o = Tuple.join (columns 0) t (Tuple.nulls (columns 1)) ∧
    Selected I condition ((ins 1).map fun u => Tuple.join (columns 0) t u) []

theorem isPair_or_isPadded (emits : (Operator.join .leftOuter condition).Emits I columns ins out)
    (member : o ∈ out) : IsPair I columns ins condition o ∨ IsPadded I columns ins condition o := by
  obtain ⟨blocks, joined, rfl⟩ := emits
  obtain ⟨⟨t, block⟩, zipped, member⟩ := List.mem_flatMap.mp member
  have selected := List.forall₂_zip joined zipped
  have isLeft := (List.of_mem_zip zipped).1
  dsimp only at member
  split at member
  · rename_i isEmpty
    rw [List.isEmpty_iff.mp isEmpty] at selected
    exact .inr ⟨t, isLeft, List.mem_singleton.mp member, selected⟩
  · obtain ⟨paired, isTrue⟩ := Selected.sound selected member
    obtain ⟨u, isRight, rfl⟩ := List.mem_map.mp paired
    exact .inl ⟨t, isLeft, u, isRight, rfl, isTrue⟩

/-- What is said about the inputs of a join: facts that hold, each about its own side. -/
structure Sides (columns : Nat → List Var) (ins : Nat → List Tuple) (left right : Facts) : Prop where
  apart : ∀ v ∈ columns 0, v ∉ columns 1
  withinLeft : left.Within (columns 0)
  withinRight : right.Within (columns 1)
  holdLeft : left.HoldIn (ins 0)
  holdRight : right.HoldIn (ins 1)

/-- The facts of the left side are true of all tuples. -/
theorem Sides.left_holdIn (sides : Sides columns ins left right)
    (emits : (Operator.join .leftOuter condition).Emits I columns ins out) : left.HoldIn out := by
  refine sides.holdLeft.transfer fun o member => ?_
  obtain ⟨t, isLeft, u, rfl⟩ : ∃ t ∈ ins 0, ∃ u, o = Tuple.join (columns 0) t u := by
    rcases isPair_or_isPadded emits member with ⟨t, isLeft, u, _, joined, _⟩ | ⟨t, isLeft, joined, _⟩
    · exact ⟨t, isLeft, u, joined⟩
    · exact ⟨t, isLeft, _, joined⟩
  exact ⟨t, isLeft, fun v mention => Tuple.join_of_mem (sides.withinLeft.mem mention)⟩

theorem Sides.join_of_right (sides : Sides columns ins left right) {v : Var} (isRight : v ∈ columns 1)
    (t u : Tuple) : Tuple.join (columns 0) t u v = u v :=
  Tuple.join_of_not_mem fun isLeft => sides.apart v isLeft isRight

/-- The facts of the right side are true of pairs. -/
theorem Sides.right_holdIn_pairs (sides : Sides columns ins left right) {ts : List Tuple}
    (pairs : ∀ o ∈ ts, IsPair I columns ins condition o) : right.HoldIn ts := by
  refine sides.holdRight.transfer fun o member => ?_
  obtain ⟨t, _, u, isRight, rfl, _⟩ := pairs o member
  exact ⟨u, isRight, fun v mention => sides.join_of_right (sides.withinRight.mem mention) t u⟩

theorem IsPair.condition_holdIn (pair : IsPair I columns ins condition o) :
    (Facts.empty.assume condition).HoldIn [o] := by
  obtain ⟨_, _, _, _, _, isTrue⟩ := pair
  exact Facts.HoldIn.none.assume fun t member => by rwa [List.mem_singleton.mp member]

/-- In pairs, the left members of a class of the condition determine the right ones. -/
theorem IsPair.outerJoin_agree (pair : IsPair I columns ins condition o)
    (pair' : IsPair I columns ins condition o')
    (member : d ∈ Facts.outerJoin condition (columns 0) (columns 1))
    (agree : ∀ v ∈ d.head, o v = o' v) : ∀ v ∈ d.tail, o v = o' v := by
  obtain ⟨c, isClass, ⟨w, inHead⟩, head, tail⟩ := Facts.mem_outerJoin member
  have equal : ∀ {o : Tuple}, IsPair I columns ins condition o → ∀ v ∈ d.tail, o v = o w :=
    fun pair v inTail => (pair.condition_holdIn.equivalence _ List.mem_cons_self c isClass).equal
      v (tail v inTail).1 w (head w inHead).1
  intro v inTail
  rw [equal pair v inTail, equal pair' v inTail, agree w inHead]

/-- Dependencies that do not come from the left side are about the right side. -/
theorem Sides.tail_right (sides : Sides columns ins left right)
    (member : d ∈ right.dependencies ∨ d ∈ Facts.outerJoin condition (columns 0) (columns 1)) :
    ∀ v ∈ d.tail, v ∈ columns 1 := by
  intro v inTail
  rcases member with isRight | isOuter
  · exact sides.withinRight.dependencies d isRight v (.inr inTail)
  · obtain ⟨c, _, _, _, tail⟩ := Facts.mem_outerJoin isOuter
    exact (tail v inTail).2

theorem Sides.padded_agree (sides : Sides columns ins left right)
    (padded : IsPadded I columns ins condition o) (padded' : IsPadded I columns ins condition o')
    {v : Var} (isRight : v ∈ columns 1) : o v = o' v := by
  obtain ⟨t, _, rfl, _⟩ := padded
  obtain ⟨t', _, rfl, _⟩ := padded'
  rw [sides.join_of_right isRight, sides.join_of_right isRight]

/-- Two pairs, or two padded tuples, that agree on the head of a derived dependency agree on its
    tail. -/
theorem Sides.same_kind_agree (sides : Sides columns ins left right)
    (emits : (Operator.join .leftOuter condition).Emits I columns ins out)
    (member : d ∈ (Facts.leftOuter left right condition columns).dependencies)
    (ho : o ∈ out) (ho' : o' ∈ out)
    (kind : IsPair I columns ins condition o ∧ IsPair I columns ins condition o' ∨
      IsPadded I columns ins condition o ∧ IsPadded I columns ins condition o')
    (agree : ∀ v ∈ d.head, o v = o' v) : ∀ v ∈ d.tail, o v = o' v := by
  rcases Facts.mem_leftOuter.mp member with isLeft | others
  · exact (sides.left_holdIn emits).dependencies d isLeft o ho o' ho' agree
  · rcases kind with ⟨pair, pair'⟩ | ⟨padded, padded'⟩
    · rcases others with isRight | isOuter
      · have pairs : ∀ p ∈ [o, o'], IsPair I columns ins condition p := by simp [pair, pair']
        exact (sides.right_holdIn_pairs pairs).dependencies d isRight o (by simp) o' (by simp) agree
      · exact pair.outerJoin_agree pair' isOuter agree
    · exact fun v inTail => sides.padded_agree padded padded' (sides.tail_right others v inTail)

/-- Whether no padded tuple can be mistaken for a pair: no tuple of the right side is null in a whole
    head, and the head of each dependency of the condition has all that the condition reads on the
    left. -/
structure Decided (columns : Nat → List Var) (ins : Nat → List Tuple) (condition : Expr)
    (right : Facts) : Prop where
  solid : ∀ d ∈ right.dependencies, ∀ u ∈ ins 1, ∃ v ∈ d.head, u v ≠ some (.null .null)
  deterministic : condition.isDeterministic = true
  reads : ∀ d ∈ Facts.outerJoin condition (columns 0) (columns 1),
    ∀ v ∈ condition.occurrences, v ∈ columns 0 → v ∈ d.head

theorem Sides.not_agree_of_decided (sides : Sides columns ins left right)
    (decided : Decided columns ins condition right)
    (member : d ∈ right.dependencies ∨ d ∈ Facts.outerJoin condition (columns 0) (columns 1))
    (pair : IsPair I columns ins condition o) (padded : IsPadded I columns ins condition o') :
    ¬ ∀ v ∈ d.head, o v = o' v := by
  intro agree
  obtain ⟨t, _, u, isRight, rfl, isTrue⟩ := pair
  obtain ⟨t', _, rfl, nothing⟩ := padded
  rcases member with inRight | isOuter
  · obtain ⟨v, inHead, notNull⟩ := decided.solid d inRight u isRight
    have column := sides.withinRight.dependencies d inRight v (.inl inHead)
    have same := agree v inHead
    rw [sides.join_of_right column, sides.join_of_right column, Tuple.nulls_of_mem column] at same
    exact notNull same
  · -- The partner of the one tuple is a partner of the other.
    refine nothing.none_true decided.deterministic _ (List.mem_map_of_mem isRight) (isTrue.congr ?_)
    intro v occurs
    by_cases isLeft : v ∈ columns 0
    · have same := agree v (decided.reads d isOuter v occurs isLeft)
      rwa [Tuple.join_of_mem isLeft, Tuple.join_of_mem isLeft] at same ⊢
    · rw [Tuple.join_of_not_mem isLeft, Tuple.join_of_not_mem isLeft]

/-- A dependency of the right side or of the condition is true if the pairs that agree with padded
    tuples on its head are null in its tail. -/
theorem Sides.agree_iff_null (sides : Sides columns ins left right)
    (member : d ∈ right.dependencies ∨ d ∈ Facts.outerJoin condition (columns 0) (columns 1))
    (padded : IsPadded I columns ins condition o') {v : Var} (inTail : v ∈ d.tail) :
    o v = o' v ↔ o v = some (.null .null) := by
  have isRight := sides.tail_right member v inTail
  obtain ⟨t, _, rfl, _⟩ := padded
  rw [sides.join_of_right isRight, Tuple.nulls_of_mem isRight]

/-- The derived facts are true iff no pair agrees with a padded tuple on the head of a dependency
    of the right side or of the condition, unless it is null in the tail. -/
theorem Sides.holdIn_iff (sides : Sides columns ins left right)
    (emits : (Operator.join .leftOuter condition).Emits I columns ins out) :
    (Facts.leftOuter left right condition columns).HoldIn out ↔
      ∀ d, d ∈ right.dependencies ∨ d ∈ Facts.outerJoin condition (columns 0) (columns 1) →
        ∀ o ∈ out, ∀ o' ∈ out, IsPair I columns ins condition o →
          IsPadded I columns ins condition o' → (∀ v ∈ d.head, o v = o' v) →
            ∀ v ∈ d.tail, o v = some (.null .null) := by
  have holdLeft := sides.left_holdIn emits
  constructor
  · intro hold d member o ho o' ho' _ padded agree v inTail
    exact (sides.agree_iff_null member padded inTail).mp
      (hold.dependencies d (Facts.mem_leftOuter.mpr (.inr member)) o ho o' ho' agree v inTail)
  · intro nulls
    refine ⟨holdLeft.equivalence, fun d derived o ho o' ho' agree => ?_⟩
    rcases Facts.mem_leftOuter.mp derived with isLeft | member
    · exact holdLeft.dependencies d isLeft o ho o' ho' agree
    rcases isPair_or_isPadded emits ho with pair | padded <;>
      rcases isPair_or_isPadded emits ho' with pair' | padded'
    · exact sides.same_kind_agree emits derived ho ho' (.inl ⟨pair, pair'⟩) agree
    · exact fun v inTail => (sides.agree_iff_null member padded' inTail).mpr
        (nulls d member o ho o' ho' pair padded' agree v inTail)
    · have agree' : ∀ v ∈ d.head, o' v = o v := fun v inHead => (agree v inHead).symm
      exact fun v inTail => ((sides.agree_iff_null member padded inTail).mpr
        (nulls d member o' ho' o ho pair' padded agree' v inTail)).symm
    · exact sides.same_kind_agree emits derived ho ho' (.inr ⟨padded, padded'⟩) agree

/-- All derived facts are true if no padded tuple can be mistaken for a pair. -/
theorem Sides.holdIn_of_decided (sides : Sides columns ins left right)
    (emits : (Operator.join .leftOuter condition).Emits I columns ins out)
    (decided : Decided columns ins condition right) :
    (Facts.leftOuter left right condition columns).HoldIn out := by
  refine (sides.holdIn_iff emits).mpr fun d member o _ o' _ pair padded agree => ?_
  exact absurd agree (sides.not_agree_of_decided decided member pair padded)

end OuterJoin

namespace Session

open OuterJoin

variable {I : Interpretation} {s : Session} {id : NodeId} {condition : Expr} {facts : Facts}

/-- What is derived for a left outer join. -/
theorem factsFromInputs_leftOuter {left right : Facts}
    (operator : s.plan.operator id = .join .leftOuter condition)
    (derived : s.factsFromInputs id = .ok facts) (knownLeft : s.inputFacts id 0 = .ok left)
    (knownRight : s.inputFacts id 1 = .ok right) :
    facts = Facts.leftOuter left right condition (s.plan.inputColumns id) := by
  unfold factsFromInputs at derived
  rw [operator] at derived
  obtain ⟨_, known, derived⟩ := bind_ok_iff.mp derived
  cases knownLeft.symm.trans known
  obtain ⟨_, known, derived⟩ := bind_ok_iff.mp derived
  cases knownRight.symm.trans known
  obtain ⟨first, inputLeft, derived⟩ := bind_ok_iff.mp derived
  obtain ⟨schemaLeft, storedLeft, derived⟩ := bind_ok_iff.mp derived
  obtain ⟨second, inputRight, derived⟩ := bind_ok_iff.mp derived
  obtain ⟨schemaRight, storedRight, derived⟩ := bind_ok_iff.mp derived
  rw [Plan.input_ok_iff] at inputLeft inputRight
  rw [← pure_ok_iff.mp derived, Facts.leftOuter, Plan.inputColumns_of_getElem? inputLeft,
    Plan.inputColumns_of_getElem? inputRight, Plan.columns_of_schema storedLeft,
    Plan.columns_of_schema storedRight]

/-- Derived classes, and the dependencies of the left side, are true of all tuples of a left outer
    join. Every derived dependency is true between two pairs and between two padded tuples. All
    facts are true iff pairs that agree with padded tuples on a head are null in the tail, and that
    is so if no padded tuple can be mistaken for a pair. -/
theorem leftOuter_facts_hold {left right : Facts} {ins : Nat → List Tuple} {out : List Tuple}
    (operator : s.plan.operator id = .join .leftOuter condition)
    (derived : s.factsFromInputs id = .ok facts) (knownLeft : s.inputFacts id 0 = .ok left)
    (knownRight : s.inputFacts id 1 = .ok right)
    (sides : Sides (s.plan.inputColumns id) ins left right)
    (emits : (s.plan.operator id).Emits I (s.plan.inputColumns id) ins out) :
    (∀ o ∈ out, facts.equivalence.HoldsIn o) ∧ (∀ d ∈ left.dependencies, d.HoldsIn out) ∧
      (∀ d ∈ facts.dependencies, ∀ o ∈ out, ∀ o' ∈ out,
        (IsPair I (s.plan.inputColumns id) ins condition o ∧
            IsPair I (s.plan.inputColumns id) ins condition o' ∨
          IsPadded I (s.plan.inputColumns id) ins condition o ∧
            IsPadded I (s.plan.inputColumns id) ins condition o') →
        (∀ v ∈ d.head, o v = o' v) → ∀ v ∈ d.tail, o v = o' v) ∧
      (facts.HoldIn out ↔ ∀ d, d ∈ right.dependencies ∨ d ∈ Facts.outerJoin condition
          (s.plan.inputColumns id 0) (s.plan.inputColumns id 1) → ∀ o ∈ out, ∀ o' ∈ out,
        IsPair I (s.plan.inputColumns id) ins condition o →
        IsPadded I (s.plan.inputColumns id) ins condition o' →
        (∀ v ∈ d.head, o v = o' v) → ∀ v ∈ d.tail, o v = some (.null .null)) ∧
      (Decided (s.plan.inputColumns id) ins condition right → facts.HoldIn out) := by
  rw [operator] at emits
  cases factsFromInputs_leftOuter operator derived knownLeft knownRight
  have holdLeft := sides.left_holdIn emits
  exact ⟨holdLeft.equivalence, holdLeft.dependencies,
    fun d member o ho o' ho' => sides.same_kind_agree emits member ho ho',
    sides.holdIn_iff emits, sides.holdIn_of_decided emits⟩

/-- A world with equality and conjunction. -/
def outerWorld : Interpretation := { sampleWorld with
  returns := fun f xs x => f = .eq ∧ (∃ a b, xs = [a, b] ∧ x = .boolean (decide (a = b))) ∨
    f = .and ∧ x = .boolean (xs.all fun y => decide (y = .boolean true))
  rows := fun name => if name = "S" then [[.boolean true, .boolean true], [.boolean true, .boolean false],
      [.boolean false, .boolean true]]
    else [[.boolean true]]
  returns_unique := by
    intro f xs x y _ hx hy
    rcases hx with ⟨rfl, a, b, rfl, rfl⟩ | ⟨rfl, rfl⟩
    · rcases hy with ⟨_, a', b', same, rfl⟩ | ⟨impossible, _⟩
      · cases same
        rfl
      · cases impossible
    · rcases hy with ⟨impossible, _⟩ | ⟨_, rfl⟩
      · cases impossible
      · rfl
  eq_identical := by
    intro x y holds
    rcases holds with ⟨_, a, b, same, isTrue⟩ | ⟨impossible, _⟩
    · cases same
      simpa using isTrue
    · cases impossible
  and_all := by
    intro xs holds x member
    rcases holds with ⟨impossible, _⟩ | ⟨_, isTrue⟩
    · cases impossible
    · have all : xs.all (fun y => decide (y = .boolean true)) = true := by simpa using isTrue
      simpa using List.all_eq_true.mp all x member }

/-- A left outer join of two scans. The right side also computes a value. -/
def outerSession (e condition : Expr) : Session where
  plan := {
    nodes := [
      some { Node.above .emptySource [] with schema := some [] },
      some { Node.above (.scan "S" [1, 3]) [0] with schema := some [1, 3] },
      some { Node.above .emptySource [] with schema := some [] },
      some { Node.above (.scan "T" [2]) [2] with schema := some [2] },
      some { Node.above (.assign [5] [e]) [3] with schema := some [2, 5] },
      some { Node.above (.join .leftOuter condition) [1, 4] with schema := some [1, 3, 2, 5] }],
    root := 5 }
  context := { catalog := ⟨[{ name := "S", columns := [("a", .boolean), ("c", .boolean)] },
    { name := "T", columns := [("b", .boolean)] }]⟩ }

/-- The columns of the two sides. -/
def outerColumns (k : Nat) : List Var := [[1, 3], [2, 5]][k]?.getD []

/-- The derivation for the join knows nothing of the left side, and the computed value of the
    right one. -/
theorem outerSession_derived (e condition : Expr) : ∃ s,
    (outerSession e condition).facts 5 = .ok (s, Facts.leftOuter .empty (Facts.empty.assign 5 e)
      condition outerColumns) ∧
    s.factsFromInputs 5 = .ok (Facts.leftOuter .empty (Facts.empty.assign 5 e) condition
      outerColumns) ∧
    s.plan.operator 5 = .join .leftOuter condition ∧ s.inputFacts 5 0 = .ok .empty ∧
    s.inputFacts 5 1 = .ok (Facts.empty.assign 5 e) ∧ s.plan.inputColumns 5 = outerColumns := by
  refine ⟨_, rfl, rfl, rfl, rfl, rfl, ?_⟩
  funext k
  match k with
  | 0 => rfl
  | 1 => rfl
  | k + 2 => rfl

/-- The tuples of the two sides, if the computed value is true. -/
def outerInputs (k : Nat) : List Tuple :=
  if k = 0 then (outerWorld.rows "S").map fun row => Tuple.empty.extend [1, 3] row
  else (outerWorld.rows "T").map fun row => Tuple.empty.extend [2, 5] (row ++ [.boolean true])

def outerTuple (row right : List Scalar) : Tuple :=
  Tuple.join [1, 3] (Tuple.empty.extend [1, 3] row) (Tuple.empty.extend [2, 5] right)

theorem outer_sides {e : Expr} (reads : ∀ v ∈ e.occurrences, v ∈ [2, 5])
    (isTrue : e.Evaluates outerWorld (Tuple.empty.extend [2, 5] [.boolean true, .boolean true])
      (.boolean true)) : Sides outerColumns outerInputs .empty (Facts.empty.assign 5 e) where
  apart := by decide
  withinLeft := .empty _
  withinRight := (Facts.Within.empty _).assign (by decide) reads
  holdLeft := .none
  holdRight := by
    have value : ∀ t ∈ outerInputs 1, ∃ x, e.Evaluates outerWorld t x ∧ t 5 = some x := by
      intro t member
      rw [List.mem_singleton.mp member]
      exact ⟨.boolean true, isTrue, rfl⟩
    exact Facts.HoldIn.none.assign value

/-- The condition is checked for the one tuple of the right side. -/
theorem selected_one {condition : Expr} {o : Tuple} {verdict : Bool}
    (value : condition.Evaluates outerWorld o (.boolean verdict)) :
    Selected outerWorld condition [o] (if verdict then [o] else []) :=
  ⟨[.boolean verdict], .cons value .nil, by cases verdict <;> rfl⟩

def matching : Expr := .equal (.var 1) (.var 2)

/-- The condition with another conjunct, about the left side. -/
def matchingMarked : Expr := .call .and [matching, .var 3] []

theorem matching_evaluates (x y z w : Scalar) :
    matching.Evaluates outerWorld (outerTuple [x, y] [z, w]) (.boolean (decide (x = z))) :=
  ⟨[x, z], ⟨x, [z], rfl, rfl, z, [], rfl, rfl, rfl⟩, .inl ⟨rfl, x, z, rfl, rfl⟩⟩

theorem matchingMarked_evaluates (x y z w : Scalar) :
    matchingMarked.Evaluates outerWorld (outerTuple [x, y] [z, w])
      (.boolean (decide (x = z) && decide (y = .boolean true))) :=
  ⟨[.boolean (decide (x = z)), y], ⟨_, _, rfl, matching_evaluates x y z w, y, [], rfl, rfl, rfl⟩,
    .inr ⟨rfl, by simp⟩⟩

/-- The first two tuples of the left side have a partner. -/
def matchingOutput : List Tuple :=
  [outerTuple [.boolean true, .boolean true] [.boolean true, .boolean true],
    outerTuple [.boolean true, .boolean false] [.boolean true, .boolean true],
    outerTuple [.boolean false, .boolean true] [.null .null, .null .null]]

/-- Only the first tuple of the left side has a partner. -/
def matchingMarkedOutput : List Tuple :=
  [outerTuple [.boolean true, .boolean true] [.boolean true, .boolean true],
    outerTuple [.boolean true, .boolean false] [.null .null, .null .null],
    outerTuple [.boolean false, .boolean true] [.null .null, .null .null]]

theorem matching_emits : (Operator.join .leftOuter matching).Emits outerWorld outerColumns
    outerInputs matchingOutput :=
  ⟨_, .cons (selected_one (matching_evaluates ..)) (.cons (selected_one (matching_evaluates ..))
    (.cons (selected_one (matching_evaluates ..)) .nil)), rfl⟩

theorem matchingMarked_emits : (Operator.join .leftOuter matchingMarked).Emits outerWorld
    outerColumns outerInputs matchingMarkedOutput :=
  ⟨_, .cons (selected_one (matchingMarked_evaluates ..))
    (.cons (selected_one (matchingMarked_evaluates ..))
      (.cons (selected_one (matchingMarked_evaluates ..)) .nil)), rfl⟩

/-- With one equality as the condition, and a value that is computed of another one, all derived
    facts are true. -/
theorem leftOuter_facts_hold_matching : ∃ s facts,
    (outerSession (.equal (.var 2) (.var 2)) matching).facts 5 = .ok (s, facts) ∧
      facts.dependencies = [.ofLists [2] [5], .ofLists [1] [2]] ∧ facts.HoldIn matchingOutput := by
  obtain ⟨s, fresh, derived, operator, knownLeft, knownRight, columns⟩ :=
    outerSession_derived (.equal (.var 2) (.var 2)) matching
  have sides : Sides outerColumns outerInputs .empty
      (Facts.empty.assign 5 (.equal (.var 2) (.var 2))) :=
    outer_sides (by decide) ⟨_, ⟨_, _, rfl, rfl, _, _, rfl, rfl, rfl⟩, .inl ⟨rfl, _, _, rfl, by simp⟩⟩
  have emits := matching_emits
  rw [← columns] at sides emits
  rw [← operator] at emits
  refine ⟨s, _, fresh, rfl, (leftOuter_facts_hold operator derived knownLeft knownRight sides
    emits).2.2.2.2 ⟨?_, rfl, ?_⟩⟩
  · intro d member u isRight
    cases List.mem_singleton.mp member
    cases List.mem_singleton.mp isRight
    exact ⟨2, by decide, by decide⟩
  · rw [columns]
    decide

/-- With a constant on the right side and another conjunct in the condition, no derived dependency
    is true. -/
theorem leftOuter_dependencies_fail : ∃ s facts,
    (outerSession (.const (.boolean true)) matchingMarked).facts 5 = .ok (s, facts) ∧
      facts.dependencies = [.ofLists [] [5], .ofLists [1] [2]] ∧
      ∃ left right, s.inputFacts 5 0 = .ok left ∧ s.inputFacts 5 1 = .ok right ∧
        Sides (s.plan.inputColumns 5) outerInputs left right ∧
        (s.plan.operator 5).Emits outerWorld (s.plan.inputColumns 5) outerInputs
          matchingMarkedOutput ∧
        ∀ d ∈ facts.dependencies, ¬ d.HoldsIn matchingMarkedOutput := by
  obtain ⟨s, fresh, derived, operator, knownLeft, knownRight, columns⟩ :=
    outerSession_derived (.const (.boolean true)) matchingMarked
  refine ⟨s, _, fresh, rfl, _, _, knownLeft, knownRight, ?_⟩
  rw [columns, operator]
  refine ⟨outer_sides (by decide) rfl, matchingMarked_emits, fun d member holds => ?_⟩
  have agree := holds _ List.mem_cons_self _ (List.mem_cons_of_mem _ List.mem_cons_self)
  have listed : d ∈ [Dependency.ofLists [] [5], .ofLists [1] [2]] := member
  fin_cases listed
  · have same := agree (by decide) 5 (by decide)
    cases same
  · have same := agree (by decide) 2 (by decide)
    cases same

end Session

end QueryOptimizer
