import Mathlib
import QueryOptimizer.Facts.Equivalence
import QueryOptimizer.Proofs.Outcome
import QueryOptimizer.Proofs.Variable

/-! # Classes of an equivalence

What the classes are after two variables are merged or a constant is recorded.
-/

namespace QueryOptimizer.Equivalence

variable {q : Equivalence} {v w left right : Var} {c : EquivalenceClass} {value : Scalar}

theorem mem_modify {α : Type} {l : List α} {f : α → α} {i : Nat} {a : α} (member : a ∈ l.modify i f) :
    a ∈ l ∨ ∃ b, l[i]? = some b ∧ a = f b := by
  obtain ⟨j, found⟩ := List.mem_iff_getElem?.mp member
  rw [List.getElem?_modify] at found
  split at found
  · rename_i here
    obtain ⟨b, position, rfl⟩ := Option.map_eq_some_iff.mp found
    exact .inr ⟨b, here ▸ position, rfl⟩
  · exact .inl (List.mem_of_getElem? (by simpa using found))

theorem classOf?_some (found : q.classOf? v = some c) : c ∈ q.classes ∧ v ∈ c.members :=
  ⟨List.mem_of_find?_eq_some found, by simpa using List.find?_some found⟩

theorem position?_some {i : Nat} (found : q.position? v = some i) :
    ∃ c, q.classes[i]? = some c ∧ v ∈ c.members := by
  obtain ⟨small, isMember, _⟩ := List.findIdx?_eq_some_iff_getElem.mp found
  exact ⟨_, List.getElem?_eq_getElem small, by simpa using isMember⟩

theorem mem_absorb {low high : Nat} (member : c ∈ (q.absorb low high).classes)
    (below : low < high) :
    c ∈ q.classes ∨ ∃ kept removed, q.classes[low]? = some kept ∧
      q.classes[high]? = some removed ∧ c = kept.absorb removed := by
  unfold absorb at member
  cases found : q.classes[high]? with
  | none => rw [found] at member; exact .inl member
  | some removed =>
    rw [found] at member
    rcases mem_modify member with old | ⟨kept, position, rfl⟩
    · exact .inl (List.mem_of_mem_eraseIdx old)
    · rw [List.getElem?_eraseIdx_of_lt below] at position
      exact .inr ⟨kept, removed, position, rfl, rfl⟩

/-- The classes after a merge: old ones, and one that holds both variables. -/
theorem mem_merge (member : c ∈ (q.merge left right).classes) :
    c ∈ q.classes ∨ c = ⟨.ofList [left, right], none⟩ ∨
    (∃ d ∈ q.classes, left ∈ d.members ∧ c = d.insert right) ∨
    (∃ d ∈ q.classes, right ∈ d.members ∧ c = d.insert left) ∨
    ∃ d ∈ q.classes, ∃ e ∈ q.classes, c = d.absorb e ∧
      (left ∈ d.members ∧ right ∈ e.members ∨ right ∈ d.members ∧ left ∈ e.members) := by
  unfold merge at member
  split at member
  · rcases List.mem_append.mp member with old | new
    · exact .inl old
    · exact .inr (.inl (List.mem_singleton.mp new))
  · rename_i i atLeft _
    obtain ⟨d, position, inside⟩ := position?_some atLeft
    rcases mem_modify member with old | ⟨d', position', rfl⟩
    · exact .inl old
    · cases position.symm.trans position'
      exact .inr (.inr (.inl ⟨d, List.mem_of_getElem? position, inside, rfl⟩))
  · rename_i i _ atRight
    obtain ⟨d, position, inside⟩ := position?_some atRight
    rcases mem_modify member with old | ⟨d', position', rfl⟩
    · exact .inl old
    · cases position.symm.trans position'
      exact .inr (.inr (.inr (.inl ⟨d, List.mem_of_getElem? position, inside, rfl⟩)))
  · rename_i l r atLeft atRight
    obtain ⟨d, position, inside⟩ := position?_some atLeft
    obtain ⟨e, position', inside'⟩ := position?_some atRight
    split at member
    · exact .inl member
    · rename_i different
      rcases mem_absorb member (by omega) with old | ⟨kept, removed, low, high, rfl⟩
      · exact .inl old
      · refine .inr (.inr (.inr (.inr ⟨kept, List.mem_of_getElem? low, removed,
          List.mem_of_getElem? high, rfl, ?_⟩)))
        rcases Nat.lt_or_gt_of_ne different with less | more
        · rw [Nat.min_eq_left less.le] at low
          rw [Nat.max_eq_right less.le] at high
          cases position.symm.trans low
          cases position'.symm.trans high
          exact .inl ⟨inside, inside'⟩
        · rw [Nat.min_eq_right more.le] at low
          rw [Nat.max_eq_left more.le] at high
          cases position'.symm.trans low
          cases position.symm.trans high
          exact .inr ⟨inside', inside⟩

/-- The classes after a constant was recorded. -/
theorem mem_addConstant (member : c ∈ (q.addConstant v value).classes) :
    c ∈ q.classes ∨ c = ⟨.singleton v, some value⟩ ∨
    ∃ d ∈ q.classes, v ∈ d.members ∧ c = d.pin value := by
  unfold addConstant at member
  split at member
  · rename_i i found
    obtain ⟨d, position, inside⟩ := position?_some found
    rcases mem_modify member with old | ⟨d', position', rfl⟩
    · exact .inl old
    · cases position.symm.trans position'
      exact .inr (.inr ⟨d, List.mem_of_getElem? position, inside, rfl⟩)
  · rcases List.mem_append.mp member with old | new
    · exact .inl old
    · exact .inr (.inl (List.mem_singleton.mp new))

/-- The classes after a restriction. -/
theorem mem_restrict {keep : Var → Bool} (member : c ∈ (q.restrict keep).classes) :
    ∃ d ∈ q.classes, c = { d with members := d.members.filter keep } := by
  obtain ⟨mapped, _⟩ := List.mem_filter.mp member
  obtain ⟨d, inside, rfl⟩ := List.mem_map.mp mapped
  exact ⟨d, inside, rfl⟩

/-- What merges and constants of members keep, the class of the members keeps. -/
theorem addClass_keeps (P : Equivalence → Prop) {members : List Var} {constant : Option Scalar}
    (start : P q) (merged : ∀ q v w, v ∈ members → w ∈ members → P q → P (q.merge v w))
    (pinned : ∀ q v value, v ∈ members → constant = some value → P q → P (q.addConstant v value)) :
    P (q.addClass members constant) := by
  cases members with
  | nil => exact start
  | cons first others =>
    have folded : P (others.foldl (fun q v => q.merge first v) q) :=
      foldl_keeps P (fun v inside q h =>
        merged q first v List.mem_cons_self (List.mem_cons_of_mem _ inside) h) start
    cases constant with
    | none => exact folded
    | some value => exact pinned _ first value List.mem_cons_self rfl folded

/-- A property that the empty equivalence has and all operations keep. -/
structure Kept (P : Equivalence → Prop) : Prop where
  empty : P ⟨[]⟩
  merge : ∀ {q left right}, P q → P (q.merge left right)
  addConstant : ∀ {q v value}, P q → P (q.addConstant v value)
  restrict : ∀ {q} keep, P q → P (q.restrict keep)

namespace Kept

variable {P : Equivalence → Prop} (kept : Kept P)

include kept

theorem addClass {members : List Var} {constant : Option Scalar} (holds : P q) :
    P (q.addClass members constant) :=
  addClass_keeps P holds (fun _ _ _ _ _ => kept.merge) fun _ _ _ _ _ => kept.addConstant

theorem union (other : Equivalence) (holds : P q) : P (q.union other) :=
  foldl_keeps P (fun _ _ _ => kept.addClass) holds

theorem rename (q : Equivalence) (names : Var → List Var) : P (q.rename names) :=
  foldl_keeps P (fun _ _ _ => kept.addClass) kept.empty

end Kept

/-- Whether every class has a member. -/
def Inhabited (q : Equivalence) : Prop := ∀ c ∈ q.classes, ∃ v, v ∈ c.members

theorem kept_inhabited : Kept Inhabited where
  empty := by rintro c ⟨⟩
  merge := by
    intro q left right inhabited c member
    rcases mem_merge member with old | rfl | ⟨d, _, _, rfl⟩ | ⟨d, _, _, rfl⟩ | ⟨d, old, e, _, rfl, _⟩
    · exact inhabited c old
    · exact ⟨left, VarSet.mem_ofList.mpr List.mem_cons_self⟩
    · exact ⟨right, VarSet.mem_insert.mpr (.inl rfl)⟩
    · exact ⟨left, VarSet.mem_insert.mpr (.inl rfl)⟩
    · exact (inhabited d old).imp fun v inside => VarSet.mem_union.mpr (.inl inside)
  addConstant := by
    intro q v value inhabited c member
    rcases mem_addConstant member with old | rfl | ⟨d, _, inside, rfl⟩
    · exact inhabited c old
    · exact ⟨v, VarSet.mem_singleton.mpr rfl⟩
    · exact ⟨v, inside⟩
  restrict := by
    intro q keep _ c member
    have kept := (Bool.and_eq_true_iff.mp (List.mem_filter.mp member).2).1
    by_contra none
    rw [VarSet.isEmpty_iff.mpr (not_exists.mp none)] at kept
    cases kept

/-- Whether a class has the variable. -/
def Mentions (q : Equivalence) (v : Var) : Prop := ∃ c ∈ q.classes, v ∈ c.members

theorem mentions_merge (mention : (q.merge left right).Mentions v) :
    q.Mentions v ∨ v = left ∨ v = right := by
  obtain ⟨c, member, inside⟩ := mention
  rcases mem_merge member with old | rfl | ⟨d, old, _, rfl⟩ | ⟨d, old, _, rfl⟩ |
    ⟨d, oldD, e, oldE, rfl, _⟩
  · exact .inl ⟨c, old, inside⟩
  · exact .inr (by simpa using inside)
  · rcases VarSet.mem_insert.mp inside with rfl | inside
    · exact .inr (.inr rfl)
    · exact .inl ⟨d, old, inside⟩
  · rcases VarSet.mem_insert.mp inside with rfl | inside
    · exact .inr (.inl rfl)
    · exact .inl ⟨d, old, inside⟩
  · rcases VarSet.mem_union.mp inside with inside | inside
    · exact .inl ⟨d, oldD, inside⟩
    · exact .inl ⟨e, oldE, inside⟩

theorem mentions_addConstant (mention : (q.addConstant w value).Mentions v) :
    q.Mentions v ∨ v = w := by
  obtain ⟨c, member, inside⟩ := mention
  rcases mem_addConstant member with old | rfl | ⟨d, old, _, rfl⟩
  · exact .inl ⟨c, old, inside⟩
  · exact .inr (VarSet.mem_singleton.mp inside)
  · exact .inl ⟨d, old, inside⟩

theorem mentions_restrict {keep : Var → Bool} (mention : (q.restrict keep).Mentions v) :
    q.Mentions v ∧ keep v = true := by
  obtain ⟨c, member, inside⟩ := mention
  obtain ⟨d, old, rfl⟩ := mem_restrict member
  obtain ⟨inside, kept⟩ := VarSet.mem_filter.mp inside
  exact ⟨⟨d, old, inside⟩, kept⟩

end QueryOptimizer.Equivalence
