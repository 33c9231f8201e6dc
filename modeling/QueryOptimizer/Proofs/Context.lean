import Mathlib
import QueryOptimizer.Context

/-! # Tables of values by node -/

namespace QueryOptimizer.NodeTable

variable {α : Type} {id n : NodeId}

theorem lookup_filter_ne {entries : List (NodeId × α)} (different : n ≠ id) :
    (entries.filter fun entry => entry.1 ≠ id).lookup n = entries.lookup n := by
  induction entries with
  | nil => rfl
  | cons entry entries ih =>
    by_cases erased : entry.1 = id
    · have other : n ≠ entry.1 := fun same => different (same.trans erased)
      rw [List.filter_cons_of_neg (by simpa using erased), ih, List.lookup_cons,
        beq_eq_false_iff_ne.mpr other]
    · rw [List.filter_cons_of_pos (by simpa using erased), List.lookup_cons, List.lookup_cons, ih]

theorem lookup_filter_self {entries : List (NodeId × α)} :
    (entries.filter fun entry => entry.1 ≠ id).lookup id = none := by
  refine List.lookup_eq_none_iff.mpr fun entry kept => ?_
  have different : entry.1 ≠ id := by simpa using (List.mem_filter.mp kept).2
  exact bne_iff_ne.mpr different.symm

theorem get?_erase (table : NodeTable α) (id n : NodeId) :
    (table.erase id).get? n = if n = id then none else table.get? n := by
  split
  · rename_i same
    subst same
    exact lookup_filter_self
  · rename_i different
    exact lookup_filter_ne different

theorem get?_insert (table : NodeTable α) (id n : NodeId) (value : α) :
    (table.insert id value).get? n = if n = id then some value else table.get? n := by
  unfold insert get?
  rw [List.lookup_cons]
  split
  · rename_i same
    rw [if_pos (beq_iff_eq.mp same)]
  · rename_i different
    have different : n ≠ id := beq_eq_false_iff_ne.mp different
    rw [if_neg different]
    exact lookup_filter_ne different

theorem get?_insert_cases {table : NodeTable α} {n : NodeId} {value other : α}
    (noted : (table.insert id value).get? n = some other) :
    n = id ∧ other = value ∨ table.get? n = some other := by
  rw [get?_insert] at noted
  split at noted
  · rename_i same
    exact .inl ⟨same, (Option.some.inj noted).symm⟩
  · exact .inr noted

/-- A value that is found is noted. Then all notes are found, and those that were there stay. -/
theorem insert_found {table : NodeTable α} {P : NodeId → Prop} {Finds : NodeId → α → Prop} {value : α}
    (found : ∀ n other, P n → table.get? n = some other → Finds n other) (here : P id)
    (finds : Finds id value) (unique : ∀ {other}, Finds id other → other = value) :
    (∀ n other, P n → (table.insert id value).get? n = some other → Finds n other) ∧
      (∀ n other, table.get? n = some other → (table.insert id value).get? n = some other) ∧
      (table.insert id value).get? id = some value := by
  refine ⟨fun n other listed noted => ?_, fun n other noted => ?_, by rw [get?_insert, if_pos rfl]⟩
  · rcases get?_insert_cases noted with ⟨rfl, rfl⟩ | before
    · exact finds
    · exact found n other listed before
  · rw [get?_insert]
    split
    · rename_i same
      subst same
      rw [unique (found n other here noted)]
    · exact noted

theorem get?_eraseAll (table : NodeTable α) (ids : List NodeId) (n : NodeId) :
    (ids.foldl erase table).get? n = if n ∈ ids then none else table.get? n := by
  induction ids generalizing table with
  | nil => simp
  | cons id ids ih =>
    rw [List.foldl_cons, ih, get?_erase]
    by_cases same : n = id <;> simp [same]

end QueryOptimizer.NodeTable

namespace QueryOptimizer.Context

variable (context : Context) (ids : List NodeId)

/-- Nodes are forgotten in all tables. -/
theorem forgetAll_eq : ids.foldl forget context =
    { context with
      facts := ids.foldl NodeTable.erase context.facts, types := ids.foldl NodeTable.erase context.types,
      sizes := ids.foldl NodeTable.erase context.sizes,
      delivered := ids.foldl NodeTable.erase context.delivered,
      applied := ids.foldl NodeTable.erase context.applied } := by
  induction ids generalizing context with
  | nil => rfl
  | cons id ids ih =>
    rw [List.foldl_cons, ih]
    rfl

end QueryOptimizer.Context
