import Mathlib
import QueryOptimizer.Proofs.Facts.Equivalence

/-! # Disjoint classes

Every variable is in at most one class, and all operations on classes keep it so. Then the class
of a variable is the class of each of its members.
-/

namespace QueryOptimizer.Equivalence

variable {q other : Equivalence} {v w left right : Var} {c : EquivalenceClass} {value : Scalar}

/-- Classes at two positions have no member in common. -/
def Disjoint (q : Equivalence) : Prop :=
  ∀ ⦃i j : Nat⦄ ⦃c d : EquivalenceClass⦄ ⦃v : Var⦄, q.classes[i]? = some c →
    q.classes[j]? = some d → v ∈ c.members → v ∈ d.members → i = j

theorem Disjoint.empty : Disjoint ⟨[]⟩ := by
  intro i j c d v atI
  simp at atI

theorem position?_none (missing : q.position? v = none) (member : c ∈ q.classes) :
    v ∉ c.members := by
  simpa using List.findIdx?_eq_none_iff.mp missing c member

theorem Disjoint.append (disjoint : q.Disjoint)
    (fresh : ∀ v ∈ c.members, ∀ d ∈ q.classes, v ∉ d.members) : Disjoint ⟨q.classes ++ [c]⟩ := by
  intro i j a b v atI atJ inA inB
  have old : ∀ {i : Nat} {a}, (q.classes ++ [c])[i]? = some a →
      q.classes[i]? = some a ∨ i = q.classes.length ∧ a = c := by
    intro i a found
    grind
  rcases old atI with oldA | ⟨rfl, rfl⟩ <;> rcases old atJ with oldB | ⟨rfl, rfl⟩
  · exact disjoint oldA oldB inA inB
  · exact absurd inA (fresh v inB a (List.mem_of_getElem? oldA))
  · exact absurd inB (fresh v inA b (List.mem_of_getElem? oldB))
  · rfl

theorem Disjoint.modify {i : Nat} {f : EquivalenceClass → EquivalenceClass} (disjoint : q.Disjoint)
    (grown : ∀ c, q.classes[i]? = some c → ∀ v ∈ (f c).members,
      v ∈ c.members ∨ ∀ d ∈ q.classes, v ∉ d.members) :
    Disjoint ⟨q.classes.modify i f⟩ := by
  intro j k a b v atJ atK inA inB
  -- Each class is an old one, or the changed one with variables that no class had.
  have origin : ∀ {j : Nat} {a : EquivalenceClass}, (q.classes.modify i f)[j]? = some a →
      v ∈ a.members → (∃ d, q.classes[j]? = some d ∧ v ∈ d.members) ∨
        j = i ∧ ∀ d ∈ q.classes, v ∉ d.members := by
    intro j a found inside
    rw [List.getElem?_modify] at found
    obtain ⟨d, atOld, rfl⟩ := Option.map_eq_some_iff.mp found
    by_cases here : i = j
    · subst here
      rw [if_pos rfl] at inside
      rcases grown d atOld v inside with before | new
      · exact .inl ⟨d, atOld, before⟩
      · exact .inr ⟨rfl, new⟩
    · rw [if_neg here] at inside
      exact .inl ⟨d, atOld, inside⟩
  rcases origin atJ inA with ⟨d, oldJ, inD⟩ | ⟨rfl, new⟩ <;>
    rcases origin atK inB with ⟨e, oldK, inE⟩ | ⟨rfl, new'⟩
  · exact disjoint oldJ oldK inD inE
  · exact absurd inD (new' d (List.mem_of_getElem? oldJ))
  · exact absurd inE (new e (List.mem_of_getElem? oldK))
  · rfl

theorem Disjoint.absorb {low high : Nat} (disjoint : q.Disjoint) (below : low < high) :
    (q.absorb low high).Disjoint := by
  unfold Equivalence.absorb
  cases found : q.classes[high]? with
  | none => exact disjoint
  | some removed =>
    intro j k a b v atJ atK inA inB
    -- Where a class of the result comes from; the joined class also comes from `high`.
    have origin : ∀ {j : Nat} {a : EquivalenceClass},
        ((q.classes.eraseIdx high).modify low (·.absorb removed))[j]? = some a → v ∈ a.members →
        ∃ i d, q.classes[i]? = some d ∧ v ∈ d.members ∧
          (i < high ∧ j = i ∨ high < i ∧ j = i - 1 ∨ i = high ∧ j = low) := by
      intro j a atNew inside
      rw [List.getElem?_modify] at atNew
      obtain ⟨d, atOld, rfl⟩ := Option.map_eq_some_iff.mp atNew
      rw [List.getElem?_eraseIdx] at atOld
      by_cases here : low = j
      · subst here
        rw [if_pos below] at atOld
        rw [if_pos rfl] at inside
        rcases VarSet.mem_union.mp inside with inside | inside
        · exact ⟨low, d, atOld, inside, .inl ⟨below, rfl⟩⟩
        · exact ⟨high, removed, found, inside, .inr (.inr ⟨rfl, rfl⟩)⟩
      · rw [if_neg here] at inside
        split at atOld
        · rename_i small
          exact ⟨j, d, atOld, inside, .inl ⟨small, rfl⟩⟩
        · exact ⟨j + 1, d, atOld, inside, .inr (.inl ⟨by omega, by omega⟩)⟩
    obtain ⟨i, d, oldJ, inD, placeJ⟩ := origin atJ inA
    obtain ⟨i', d', oldK, inD', placeK⟩ := origin atK inB
    have same : i = i' := disjoint oldJ oldK inD inD'
    omega

theorem Disjoint.merge (disjoint : q.Disjoint) : (q.merge left right).Disjoint := by
  unfold Equivalence.merge
  split
  · rename_i noLeft noRight
    refine disjoint.append ?_
    intro v inside d member
    rcases List.mem_pair.mp (VarSet.mem_ofList.mp inside) with rfl | rfl
    · exact position?_none noLeft member
    · exact position?_none noRight member
  · rename_i noRight
    refine disjoint.modify ?_
    intro c _ v inside
    rcases VarSet.mem_insert.mp inside with rfl | inside
    · exact .inr fun d member => position?_none noRight member
    · exact .inl inside
  · rename_i noLeft _
    refine disjoint.modify ?_
    intro c _ v inside
    rcases VarSet.mem_insert.mp inside with rfl | inside
    · exact .inr fun d member => position?_none noLeft member
    · exact .inl inside
  · split
    · exact disjoint
    · exact disjoint.absorb (by omega)

theorem Disjoint.addConstant (disjoint : q.Disjoint) : (q.addConstant v value).Disjoint := by
  unfold Equivalence.addConstant
  split
  · exact disjoint.modify fun c _ v inside => .inl inside
  · rename_i missing
    refine disjoint.append ?_
    intro w inside d member
    rw [VarSet.mem_singleton.mp inside]
    exact position?_none missing member

theorem disjoint_iff_pairwise :
    q.Disjoint ↔ q.classes.Pairwise fun c d => ∀ v ∈ c.members, v ∉ d.members := by
  rw [List.pairwise_iff_getElem]
  constructor
  · intro disjoint i j small small' less v inC inD
    have same := disjoint (List.getElem?_eq_getElem small) (List.getElem?_eq_getElem small') inC inD
    omega
  · intro apart i j c d v atI atJ inC inD
    obtain ⟨small, rfl⟩ := List.getElem?_eq_some_iff.mp atI
    obtain ⟨small', rfl⟩ := List.getElem?_eq_some_iff.mp atJ
    rcases Nat.lt_trichotomy i j with less | same | more
    · exact absurd inD (apart i j small small' less v inC)
    · exact same
    · exact absurd inC (apart j i small' small more v inD)

theorem Disjoint.restrict (disjoint : q.Disjoint) (keep : Var → Bool) :
    (q.restrict keep).Disjoint := by
  rw [disjoint_iff_pairwise] at disjoint ⊢
  refine (List.Pairwise.map _ ?_ disjoint).filter _
  intro c d apart v inC inD
  exact apart v (VarSet.mem_filter.mp inC).1 (VarSet.mem_filter.mp inD).1

theorem kept_disjoint : Kept Disjoint where
  empty := .empty
  merge := .merge
  addConstant := .addConstant
  restrict keep disjoint := disjoint.restrict keep

/-- The members of a class have the class. -/
theorem Disjoint.classOf?_eq (disjoint : q.Disjoint) (member : c ∈ q.classes)
    (inside : v ∈ c.members) : q.classOf? v = some c := by
  cases found : q.classOf? v with
  | none =>
    have outside := List.find?_eq_none.mp found c member
    exact absurd inside (by simpa using outside)
  | some d =>
    obtain ⟨memberD, insideD⟩ := classOf?_some found
    obtain ⟨i, atI⟩ := List.mem_iff_getElem?.mp member
    obtain ⟨j, atJ⟩ := List.mem_iff_getElem?.mp memberD
    have same : i = j := disjoint atI atJ inside insideD
    subst same
    exact atJ.symm.trans atI

theorem mem_membersOf_self (q : Equivalence) (v : Var) : v ∈ q.membersOf v := by
  unfold membersOf
  split
  · rename_i c found
    exact (classOf?_some found).2
  · exact VarSet.mem_singleton.mpr rfl

section

variable (disjoint : q.Disjoint)

include disjoint

theorem Disjoint.classOf?_of_mem (equivalent : w ∈ q.membersOf v) : q.classOf? w = q.classOf? v := by
  unfold membersOf at equivalent
  split at equivalent
  · rename_i c found
    rw [found]
    exact disjoint.classOf?_eq (classOf?_some found).1 equivalent
  · rw [VarSet.mem_singleton.mp equivalent]

theorem Disjoint.membersOf_of_mem (equivalent : w ∈ q.membersOf v) : q.membersOf w = q.membersOf v := by
  have same := disjoint.classOf?_of_mem equivalent
  unfold membersOf at equivalent ⊢
  rw [same]
  cases found : q.classOf? v with
  | some c => rfl
  | none =>
    rw [found] at equivalent
    rw [VarSet.mem_singleton.mp equivalent]

theorem Disjoint.mem_symm (equivalent : w ∈ q.membersOf v) : v ∈ q.membersOf w := by
  rw [disjoint.membersOf_of_mem equivalent]
  exact mem_membersOf_self q v

theorem Disjoint.position?_eq {c : EquivalenceClass} {i : Nat} (atI : q.classes[i]? = some c)
    (inside : v ∈ c.members) : q.position? v = some i := by
  cases found : q.position? v with
  | none => exact absurd inside (position?_none found (List.mem_of_getElem? atI))
  | some j =>
    obtain ⟨d, atJ, inD⟩ := position?_some found
    rw [disjoint atI atJ inside inD]

/-- Equivalent variables are the same, or have a class in common. -/
theorem Disjoint.mem_membersOf_iff :
    w ∈ q.membersOf v ↔ v = w ∨ ∃ c ∈ q.classes, v ∈ c.members ∧ w ∈ c.members := by
  constructor
  · intro equivalent
    unfold membersOf at equivalent
    split at equivalent
    · rename_i c found
      obtain ⟨member, inside⟩ := classOf?_some found
      exact .inr ⟨c, member, inside, equivalent⟩
    · exact .inl (VarSet.mem_singleton.mp equivalent).symm
  · rintro (rfl | ⟨c, member, inV, inW⟩)
    · exact mem_membersOf_self q v
    · simpa [membersOf, disjoint.classOf?_eq member inV] using inW

theorem Disjoint.areEquivalent_iff : q.areEquivalent v w = true ↔ w ∈ q.membersOf v := by
  rw [disjoint.mem_membersOf_iff]
  unfold areEquivalent
  rw [Bool.or_eq_true, decide_eq_true_iff]
  refine or_congr_right ⟨fun together => ?_, ?_⟩
  · split at together
    · rename_i i j atV atW
      obtain ⟨c, atI, inC⟩ := position?_some atV
      obtain ⟨d, atJ, inD⟩ := position?_some atW
      rw [of_decide_eq_true together] at atI
      cases atI.symm.trans atJ
      exact ⟨c, List.mem_of_getElem? atI, inC, inD⟩
    · cases together
  · rintro ⟨c, member, inV, inW⟩
    obtain ⟨i, atI⟩ := List.mem_iff_getElem?.mp member
    simp [disjoint.position?_eq atI inV, disjoint.position?_eq atI inW]

theorem Disjoint.isConstant_iff :
    q.isConstant v = true ↔ ∃ c ∈ q.classes, v ∈ c.members ∧ c.constant.isSome = true := by
  unfold isConstant constantOf?
  constructor
  · intro known
    cases found : q.classOf? v with
    | none => simp [found] at known
    | some c =>
      obtain ⟨member, inside⟩ := classOf?_some found
      exact ⟨c, member, inside, by simpa [found] using known⟩
  · rintro ⟨c, member, inside, known⟩
    simpa [disjoint.classOf?_eq member inside] using known

end

end QueryOptimizer.Equivalence
