import Mathlib
import QueryOptimizer.Facts.Basic
import QueryOptimizer.Proofs.Facts.Equivalence
import QueryOptimizer.Proofs.Variable

/-! # Variables of facts

Which variables facts speak about, and that the operations on facts add no others than those they
are given.
-/

namespace QueryOptimizer

/-- Whether the head or the tail has the variable. -/
def Dependency.Mentions (d : Dependency) (v : Var) : Prop := v ∈ d.head ∨ v ∈ d.tail

mutual
theorem Expr.mem_occurrences_of_conjunct {condition conjunct : Expr} {v : Var}
    (member : conjunct ∈ condition.conjuncts) (occurs : v ∈ conjunct.occurrences) :
    v ∈ condition.occurrences := by
  cases condition with
  | const value => cases List.mem_singleton.mp member; exact occurs
  | var w => cases List.mem_singleton.mp member; exact occurs
  | call f args hints =>
    by_cases isAnd : f = .and
    · subst isAnd
      exact Expr.mem_occurrencesList_of_conjunct (by simpa [conjuncts] using member) occurs
    · rw [conjuncts_call isAnd] at member
      cases List.mem_singleton.mp member
      exact occurs

theorem Expr.mem_occurrencesList_of_conjunct {es : List Expr} {conjunct : Expr} {v : Var}
    (member : conjunct ∈ conjunctsList es) (occurs : v ∈ conjunct.occurrences) :
    v ∈ occurrencesList es := by
  cases es with
  | nil => cases member
  | cons e es =>
    rcases List.mem_append.mp member with here | later
    · exact List.mem_append_left _ (Expr.mem_occurrences_of_conjunct here occurs)
    · exact List.mem_append_right _ (Expr.mem_occurrencesList_of_conjunct later occurs)
end

namespace Equivalence

/-- Whether all variables of the classes are listed. -/
def Within (q : Equivalence) (vs : List Var) : Prop := ∀ v, q.Mentions v → v ∈ vs

variable {q other : Equivalence} {vs : List Var}

theorem Within.merge {left right : Var} (within : q.Within vs) (hl : left ∈ vs) (hr : right ∈ vs) :
    (q.merge left right).Within vs := by
  intro v mention
  rcases mentions_merge mention with old | rfl | rfl
  · exact within v old
  · exact hl
  · exact hr

theorem Within.addConstant {v : Var} {value : Scalar} (within : q.Within vs) (hv : v ∈ vs) :
    (q.addConstant v value).Within vs := by
  intro w mention
  rcases mentions_addConstant mention with old | rfl
  · exact within w old
  · exact hv

theorem Within.addClass {members : List Var} {constant : Option Scalar} (within : q.Within vs)
    (listed : ∀ v ∈ members, v ∈ vs) : (q.addClass members constant).Within vs :=
  addClass_keeps (fun q => q.Within vs) within
    (fun _ v w hv hw h => h.merge (listed v hv) (listed w hw))
    (fun _ v _ hv _ h => h.addConstant (listed v hv))

theorem Within.union (within : q.Within vs) (others : other.Within vs) :
    (q.union other).Within vs := by
  refine foldl_keeps (fun r : Equivalence => r.Within vs) (fun c member r h => ?_) within
  exact h.addClass fun v inside => others v ⟨c, member, inside⟩

theorem Within.rename {names : Var → List Var} (listed : ∀ v, ∀ w ∈ names v, w ∈ vs) :
    (q.rename names).Within vs := by
  refine foldl_keeps (fun r : Equivalence => r.Within vs) (fun c member r h => ?_) ?_
  · refine h.addClass fun w inside => ?_
    obtain ⟨v, _, isName⟩ := List.mem_flatMap.mp inside
    exact listed v w isName
  · rintro v ⟨c, impossible, _⟩
    cases impossible

end Equivalence

namespace Facts

/-- Whether a class or a dependency has the variable. -/
def Mentions (facts : Facts) (v : Var) : Prop :=
  facts.equivalence.Mentions v ∨ ∃ d ∈ facts.dependencies, d.Mentions v

/-- Whether facts are about the listed variables only. -/
structure Within (facts : Facts) (vs : List Var) : Prop where
  equivalence : facts.equivalence.Within vs
  dependencies : ∀ d ∈ facts.dependencies, ∀ v, d.Mentions v → v ∈ vs

variable {facts : Facts} {vs ws : List Var} {v w : Var} {value : Scalar} {d : Dependency}

theorem Within.mem (within : facts.Within vs) (mention : facts.Mentions v) : v ∈ vs := by
  rcases mention with inClass | ⟨d, member, inDependency⟩
  · exact within.equivalence v inClass
  · exact within.dependencies d member v inDependency

theorem Within.mono (within : facts.Within vs) (more : ∀ v ∈ vs, v ∈ ws) : facts.Within ws :=
  ⟨fun v mention => more v (within.equivalence v mention),
    fun d member v mention => more v (within.dependencies d member v mention)⟩

theorem Within.empty (vs : List Var) : Facts.empty.Within vs := by
  constructor
  · rintro v ⟨c, impossible, _⟩
    cases impossible
  · intro d impossible
    cases impossible

theorem Within.merge (within : facts.Within vs) (hv : v ∈ vs) (hw : w ∈ vs) :
    (facts.merge v w).Within vs :=
  ⟨within.equivalence.merge hv hw, within.dependencies⟩

theorem Within.addConstant (within : facts.Within vs) (hv : v ∈ vs) :
    (facts.addConstant v value).Within vs :=
  ⟨within.equivalence.addConstant hv, within.dependencies⟩

theorem Within.addDependency (within : facts.Within vs) (listed : ∀ v, d.Mentions v → v ∈ vs) :
    (facts.addDependency d).Within vs := by
  refine ⟨within.equivalence, fun e member => ?_⟩
  rcases List.mem_append.mp member with old | new
  · exact within.dependencies e old
  · exact List.mem_singleton.mp new ▸ listed

theorem mentions_constant (mention : (Dependency.constant w).Mentions v) : v = w := by
  rcases mention with inHead | inTail
  · exact absurd inHead (VarSet.not_mem_empty v)
  · exact VarSet.mem_singleton.mp inTail

theorem mentions_ofLists {head tail : List Var}
    (mention : (Dependency.ofLists head tail).Mentions v) : v ∈ head ∨ v ∈ tail :=
  mention.imp VarSet.mem_ofList.mp VarSet.mem_ofList.mp

theorem Within.assumeConjunct {conjunct : Expr} (within : facts.Within vs)
    (listed : ∀ v ∈ conjunct.occurrences, v ∈ vs) : (facts.assumeConjunct conjunct).Within vs := by
  have pinned : ∀ v value, v ∈ vs →
      (if Dependency.constant v ∈ (facts.addConstant v value).dependencies
        then facts.addConstant v value
        else (facts.addConstant v value).addDependency (.constant v)).Within vs := by
    intro v value hv
    split
    · exact within.addConstant hv
    · exact (within.addConstant hv).addDependency fun w mention => mentions_constant mention ▸ hv
  unfold Facts.assumeConjunct
  split
  · exact within.merge (listed _ (by simp [Expr.occurrences, Expr.occurrencesList]))
      (listed _ (by simp [Expr.occurrences, Expr.occurrencesList]))
  · exact pinned _ _ (listed _ (by simp [Expr.occurrences, Expr.occurrencesList]))
  · exact pinned _ _ (listed _ (by simp [Expr.occurrences, Expr.occurrencesList]))
  · exact within

theorem Within.assume {condition : Expr} (within : facts.Within vs)
    (listed : ∀ v ∈ condition.occurrences, v ∈ vs) : (facts.assume condition).Within vs := by
  refine foldl_keeps (fun facts : Facts => facts.Within vs)
    (fun conjunct member facts within => ?_) within
  exact within.assumeConjunct fun v occurs =>
    listed v (Expr.mem_occurrences_of_conjunct member occurs)

theorem Within.compute {e : Expr} (within : facts.Within vs) (hv : v ∈ vs)
    (listed : ∀ w ∈ e.occurrences, w ∈ vs) : (Facts.assign.compute facts v e).Within vs := by
  unfold Facts.assign.compute
  dsimp only
  split
  · exact within
  · refine ⟨within.equivalence, fun d member w mention => ?_⟩
    rcases List.mem_append.mp member with mapped | new
    · obtain ⟨d, old, rfl⟩ := List.mem_map.mp mapped
      split at mention
      · rcases mention with inHead | inTail
        · exact within.dependencies d old w (.inl inHead)
        · rcases VarSet.mem_insertAll.mp inTail with before | added
          · exact within.dependencies d old w (.inr before)
          · exact List.mem_singleton.mp added ▸ hv
      · exact within.dependencies d old w mention
    · rw [List.mem_singleton.mp new] at mention
      rcases mentions_ofLists mention with read | assigned
      · exact listed w (mem_distinct.mp read)
      · exact List.mem_singleton.mp assigned ▸ hv

theorem Within.assign {e : Expr} (within : facts.Within vs) (hv : v ∈ vs)
    (listed : ∀ w ∈ e.occurrences, w ∈ vs) : (facts.assign v e).Within vs := by
  cases e with
  | const c =>
    exact (within.addConstant hv).addDependency fun w mention => mentions_constant mention ▸ hv
  | var w => exact (within.merge (listed w List.mem_cons_self) hv).compute hv listed
  | call f args hints => exact within.compute hv listed

theorem Within.restrict (facts : Facts) (vs : List Var) : (facts.restrict vs).Within vs := by
  constructor
  · intro v mention
    simpa using (Equivalence.mentions_restrict mention).2
  · intro e member v mention
    obtain ⟨d, _, kept⟩ := List.mem_filterMap.mp member
    unfold Dependency.restrict? at kept
    dsimp only at kept
    split at kept
    · rename_i covered
      cases kept
      rcases mention with inHead | inTail
      · have all := List.all_eq_true.mp (Bool.and_eq_true_iff.mp covered).1
        simpa using all v inHead
      · simpa using (VarSet.mem_filter.mp inTail).2
    · cases kept

theorem mem_of_mapM_head {names : Var → List Var} {us ws : List Var}
    (chosen : us.mapM (fun v => (names v).head?) = some ws) (member : w ∈ ws) :
    ∃ v ∈ us, w ∈ names v := by
  induction us generalizing ws with
  | nil => cases chosen; cases member
  | cons first us ih =>
    rw [List.mapM_cons] at chosen
    obtain ⟨w', here, rest⟩ := Option.bind_eq_some_iff.mp chosen
    obtain ⟨ws', later, shape⟩ := Option.bind_eq_some_iff.mp rest
    cases shape
    rcases List.mem_cons.mp member with rfl | inside
    · exact ⟨first, List.mem_cons_self, List.mem_of_head? here⟩
    · obtain ⟨v, listed, isName⟩ := ih later inside
      exact ⟨v, List.mem_cons_of_mem _ listed, isName⟩

theorem Within.rename (facts : Facts) {names : Var → List Var}
    (listed : ∀ v, ∀ w ∈ names v, w ∈ vs) : (facts.rename names).Within vs := by
  refine ⟨Equivalence.Within.rename listed, fun e member w mention => ?_⟩
  obtain ⟨d, _, renamed⟩ := List.mem_filterMap.mp member
  unfold Dependency.rename? at renamed
  obtain ⟨head, chosen, renamed⟩ := Option.bind_eq_some_iff.mp renamed
  split at renamed
  · cases renamed
  · cases renamed
    rcases mentions_ofLists mention with inHead | inTail
    · obtain ⟨v, _, isName⟩ := mem_of_mapM_head chosen inHead
      exact listed v w isName
    · obtain ⟨v, _, isName⟩ := List.mem_flatMap.mp inTail
      exact listed v w isName

end Facts

end QueryOptimizer
