import Mathlib
import QueryOptimizer.Proofs.Facts.Closure
import QueryOptimizer.Proofs.Relational.Facts

/-! # Implied dependencies

Facts imply that some variables determine others if this is so in every relation in which the facts
hold. Closures decide it: tuples that agree on some variables agree on their closure, and there are
two tuples that agree on the closure only.
-/

namespace QueryOptimizer

/-- Whether tuples of a relation that agree on the head agree on the target. -/
def Determined (relation : Set Tuple) (head target : List Var) : Prop :=
  ∀ t ∈ relation, ∀ u ∈ relation, t.AgreeOn u head → t.AgreeOn u target

/-- Whether a tuple has a value of every variable. -/
def Tuple.IsComplete (t : Tuple) : Prop := ∀ v, (t v).isSome = true

namespace Facts

variable {facts : Facts} {relation : Set Tuple} {head target : List Var} {known : VarSet} {v : Var}

/-- Whether facts are true of a relation. -/
structure HoldOn (facts : Facts) (relation : Set Tuple) : Prop where
  equivalence : ∀ t ∈ relation, facts.equivalence.HoldsIn t
  dependencies : ∀ d ∈ facts.dependencies, Determined relation d.head.toList d.tail.toList

theorem HoldOn.pair (hold : facts.HoldOn relation) {t u : Tuple} (ht : t ∈ relation)
    (hu : u ∈ relation) : facts.HoldIn [t, u] := by
  have inside : ∀ s ∈ [t, u], s ∈ relation := by simp [ht, hu]
  exact ⟨fun s listed => hold.equivalence s (inside s listed),
    fun d member s hs s' hs' => hold.dependencies d member s (inside s hs) s' (inside s' hs')⟩

/-- What the closure of the head holds is implied. -/
theorem HoldOn.determined (hold : facts.HoldOn relation)
    (determines : facts.determines head target = true) : Determined relation head target := by
  intro t ht u hu agree v inTarget
  have pair := hold.pair ht hu
  exact pair.closure (by simp) (by simp) agree v (determines_iff.mp determines v inTarget)

/-! ## Two tuples that agree on a closed set only -/

/-- The constants of the facts, and for all other variables whether they are known or `always`. -/
def separated (facts : Facts) (known : VarSet) (always : Bool) : Tuple := fun v =>
  some ((facts.equivalence.constantOf? v).getD (.boolean (always || decide (v ∈ known))))

theorem isComplete_separated (always : Bool) : (facts.separated known always).IsComplete :=
  fun _ => rfl

theorem separated_eq_iff (closed : facts.Closed (· ∈ known)) {always other : Bool} :
    facts.separated known always v = facts.separated known other v ↔
      always = other ∨ v ∈ known := by
  cases pinned : facts.equivalence.constantOf? v with
  | some value =>
    have inside : v ∈ known := closed.constants v (by simp [Equivalence.isConstant, pinned])
    simp [separated, pinned, inside]
  | none => by_cases inside : v ∈ known <;> simp [separated, pinned, inside]

theorem separated_holdsIn (disjoint : facts.equivalence.Disjoint)
    (closed : facts.Closed (· ∈ known)) (always : Bool) :
    facts.equivalence.HoldsIn (facts.separated known always) := by
  intro c member
  have constant : ∀ v ∈ c.members, facts.equivalence.constantOf? v = c.constant := by
    intro v inside
    simp [Equivalence.constantOf?, disjoint.classOf?_eq member inside]
  constructor
  · intro v hv w hw
    have equivalent : ∀ v ∈ c.members, ∀ w ∈ c.members, v ∈ known → w ∈ known := by
      intro v hv w hw inside
      refine closed.equivalents v w inside ?_
      simpa [Equivalence.membersOf, disjoint.classOf?_eq member hv] using hw
    have same : v ∈ known ↔ w ∈ known := ⟨equivalent v hv w hw, equivalent w hw v hv⟩
    simp only [separated, constant v hv, constant w hw, same]
  · intro value isValue v hv
    simp [separated, constant v hv, isValue]

/-- Both tuples of a closed set respect the facts. -/
theorem separated_holdOn (disjoint : facts.equivalence.Disjoint)
    (closed : facts.Closed (· ∈ known)) : facts.HoldOn (Set.range (facts.separated known)) := by
  constructor
  · rintro _ ⟨always, rfl⟩
    exact separated_holdsIn disjoint closed always
  · rintro d member _ ⟨always, rfl⟩ _ ⟨other, rfl⟩ agree v inTail
    rw [separated_eq_iff closed]
    by_cases same : always = other
    · exact .inl same
    · -- The tuples differ outside of the set, so all of the head is inside.
      refine .inr (closed.dependencies d member (fun w inHead => ?_) v inTail)
      exact ((separated_eq_iff closed).mp (agree w inHead)).resolve_left same

/-- Variables are said to determine others exactly if they do in every relation in which the facts
    hold, and it is enough to look at relations of complete tuples. -/
theorem determines_tfae_implied (disjoint : facts.equivalence.Disjoint) (head target : List Var) :
    [facts.determines head target = true,
      ∀ relation : Set Tuple, facts.HoldOn relation → Determined relation head target,
      ∀ relation : Set Tuple, (∀ t ∈ relation, t.IsComplete) → facts.HoldOn relation →
        Determined relation head target].TFAE := by
  tfae_have 1 → 2 := fun determines _ hold => hold.determined determines
  tfae_have 2 → 3 := fun implied relation _ => implied relation
  tfae_have 3 → 1 := by
    intro implied
    have closed := closure_closed disjoint head
    have complete : ∀ t ∈ Set.range (facts.separated (facts.closure head)), t.IsComplete := by
      rintro _ ⟨always, rfl⟩
      exact isComplete_separated always
    have agree : (facts.separated (facts.closure head) true).AgreeOn
        (facts.separated (facts.closure head) false) head := fun v inHead =>
      (separated_eq_iff closed).mpr (.inr (mem_closure_self inHead))
    rw [determines_iff]
    intro v inTarget
    have same := implied _ complete (separated_holdOn disjoint closed) _ ⟨true, rfl⟩ _ ⟨false, rfl⟩
      agree v inTarget
    exact ((separated_eq_iff closed).mp same).resolve_left (by simp)
  tfae_finish

/-- One class of two variables, a constant, and two dependencies that the class links. -/
def linkedFacts : Facts :=
  ⟨(({} : Equivalence).merge 2 3).addConstant 9 (.integer .int64 1),
    [.ofLists [1] [2], .ofLists [3] [4]]⟩

/-- The first variable determines the last, and some relation shows that the last does not
    determine the first. -/
theorem determines_tfae_implied_linked :
    (linkedFacts.determines [1] [4] = true ∧
      ∀ relation, linkedFacts.HoldOn relation → Determined relation [1] [4]) ∧
    (linkedFacts.determines [4] [1] = false ∧
      ∃ relation, linkedFacts.HoldOn relation ∧ ¬ Determined relation [4] [1]) := by
  have disjoint : linkedFacts.equivalence.Disjoint := Equivalence.Disjoint.empty.merge.addConstant
  have yes : linkedFacts.determines [1] [4] = true := by decide
  have no : linkedFacts.determines [4] [1] = false := by decide
  refine ⟨⟨yes, ((determines_tfae_implied disjoint [1] [4]).out 0 1).mp yes⟩, no, ?_⟩
  by_contra none
  have wrong := ((determines_tfae_implied disjoint [4] [1]).out 0 1).mpr fun relation hold =>
    by_contra fun differ => none ⟨relation, hold, differ⟩
  rw [no] at wrong
  cases wrong

end Facts

end QueryOptimizer
