import Mathlib
import QueryOptimizer.Proofs.Relational.Facts
import QueryOptimizer.Proofs.Relational.Runs

/-! # Keys of groups

A group-by makes one tuple of each group of tuples of its input, with the values of the keys and
decorations in one of them. The keys tell its tuples apart.
-/

namespace QueryOptimizer

/-- Variables that get the values of expressions have these values. -/
theorem Expr.EvaluateTo.extended {I : Interpretation} {t : Tuple} {entries : List (Var × Expr)}
    {row : List Scalar} (values : EvaluateTo I t (entries.map (·.2)) row)
    (once : (entries.map (·.1)).Nodup) (base : Tuple) {j : Nat} {entry : Var × Expr}
    (position : entries[j]? = some entry) :
    ∃ x, row[j]? = some x ∧ entry.2.Evaluates I t x ∧
      base.extend (entries.map (·.1)) row entry.1 = some x := by
  have atExpr : (entries.map (·.2))[j]? = some entry.2 := by rw [List.getElem?_map, position]; rfl
  have atVar : (entries.map (·.1))[j]? = some entry.1 := by rw [List.getElem?_map, position]; rfl
  obtain ⟨x, atRow, value⟩ := values.getElem atExpr
  exact ⟨x, atRow, value, Tuple.extend_getElem once atVar atRow⟩

namespace Plan

variable {plan : Plan} {I : Interpretation} {frames : Frames} {id : NodeId} {ts : List Tuple}
  {keys decor : List (Var × Expr)} {nested : NestedPlans}

/-- A group-by makes each tuple of a group of tuples of its input, and of each group one. -/
theorem Yields.groupBy_spec (run : plan.Yields I frames id ts)
    (operator : plan.operator id = .groupBy keys decor nested)
    (once : ((keys ++ decor).map (·.1)).Nodup) :
    ∃ input us, (plan.inputs id)[0]? = some input ∧ plan.Yields I frames input us ∧
      (∀ o ∈ ts, ∃ t ∈ us, ∀ entry ∈ keys ++ decor, ∃ x,
        entry.2.Evaluates I t x ∧ o entry.1 = some x) ∧
      ∀ o ∈ ts, ∀ o' ∈ ts, (∀ key ∈ keys, o key.1 = o' key.1) → o = o' := by
  cases run with
  | nestedSource operator' => cases operator.symm.trans operator'
  | subplan operator' => cases operator.symm.trans operator'
  | plain _ _ emits => rw [operator] at emits; exact emits.elim
  | @groupBy _ _ input _ _ _ us rows grouped inner operator' source tuples values isGroups _ _ =>
    cases operator.symm.trans operator'
    subst isGroups
    -- The first entry of a group has the values of all entries of its tuple.
    have represented : ∀ (i : Nat) (group : List (Tuple × List Scalar)),
        (groups (fun entry => entry.2.take keys.length) (us.zip rows))[i]? = some group →
        ∃ t row, (t, row) ∈ group ∧ t ∈ us ∧ group.head? = some (t, row) ∧
          Expr.EvaluateTo I t ((keys ++ decor).map (·.2)) row := by
      intro i group position
      obtain ⟨⟨t, row⟩, head, inside, _⟩ :=
        exists_head_of_mem_groups (List.mem_of_getElem? position)
      have zipped := mem_of_mem_group (List.mem_of_getElem? position) inside
      exact ⟨t, row, inside, (List.of_mem_zip zipped).1, head, List.forall₂_zip values zipped⟩
    refine ⟨input, us, source, tuples, ?_, ?_⟩
    · intro o member
      obtain ⟨i, small, rfl⟩ := List.mem_mapIdx.mp member
      obtain ⟨t, row, _, fromInput, head, evaluates⟩ :=
        represented i _ (List.getElem?_eq_getElem small)
      refine ⟨t, fromInput, fun entry listed => ?_⟩
      obtain ⟨j, position⟩ := List.mem_iff_getElem?.mp listed
      obtain ⟨x, _, value, extended⟩ := evaluates.extended once _ position
      exact ⟨x, value, by simpa only [head, Option.map_some, Option.getD_some] using extended⟩
    · intro o member o' member' agree
      obtain ⟨i, small, rfl⟩ := List.mem_mapIdx.mp member
      obtain ⟨i', small', rfl⟩ := List.mem_mapIdx.mp member'
      obtain ⟨t, row, inside, _, head, evaluates⟩ :=
        represented i _ (List.getElem?_eq_getElem small)
      obtain ⟨t', row', inside', _, head', evaluates'⟩ :=
        represented i' _ (List.getElem?_eq_getElem small')
      simp only [head, head', Option.map_some, Option.getD_some] at agree
      have sameKey : row.take keys.length = row'.take keys.length := by
        refine List.ext_getElem? fun j => ?_
        by_cases short : j < keys.length
        · have position : (keys ++ decor)[j]? = some keys[j] := by
            rw [List.getElem?_append_left short, List.getElem?_eq_getElem short]
          obtain ⟨x, atRow, _, extended⟩ := evaluates.extended once
            (plan.combine (inner i) (plan.nestedRoots id)) position
          obtain ⟨x', atRow', _, extended'⟩ := evaluates'.extended once
            (plan.combine (inner i') (plan.nestedRoots id)) position
          have same := agree keys[j] (List.getElem_mem short)
          rw [extended, extended'] at same
          rw [List.getElem?_take_of_lt short, List.getElem?_take_of_lt short, atRow, atRow', same]
        · rw [List.getElem?_take_eq_none (Nat.le_of_not_lt short),
            List.getElem?_take_eq_none (Nat.le_of_not_lt short)]
      have samePosition : i = i' := groups_position_unique (List.getElem?_eq_getElem small)
        (List.getElem?_eq_getElem small') inside inside' sameKey
      subst samePosition
      rfl

/-- Whether tuples of a node that agree on the variables are equal, in every run. -/
def IsKey (plan : Plan) (I : Interpretation) (id : NodeId) (vs : List Var) : Prop :=
  ∀ frames ts, plan.Invocation I frames → plan.Yields I frames id ts →
    ∀ o ∈ ts, ∀ o' ∈ ts, (∀ v ∈ vs, o v = o' v) → o = o'

/-- Whether facts are true of the tuples of a node and about its columns, in every run. -/
def Satisfies (plan : Plan) (I : Interpretation) (id : NodeId) (facts : Facts) : Prop :=
  ∀ frames ts, plan.Invocation I frames → plan.Yields I frames id ts →
    facts.HoldIn ts ∧ ∀ t ∈ ts, facts.Within (plan.columns id)

theorem isKey_groupBy (operator : plan.operator id = .groupBy keys decor nested)
    (once : ((keys ++ decor).map (·.1)).Nodup) : plan.IsKey I id (keys.map (·.1)) := by
  intro frames ts _ run o member o' member' agree
  obtain ⟨_, _, _, _, _, apart⟩ := run.groupBy_spec operator once
  exact apart o member o' member' fun key listed => agree key.1 (List.mem_map_of_mem listed)

end Plan

end QueryOptimizer
