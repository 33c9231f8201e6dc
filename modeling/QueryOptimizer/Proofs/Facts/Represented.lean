import Mathlib
import QueryOptimizer.Proofs.Facts.Generated

/-! # Restricted, renamed and united classes

Adding a class records that its members are equal to the first one. So the classes of a renaming or a union
are those of the least equivalence that holds all added classes, with their constants. A restriction takes
variables out of their classes and leaves the others together.
-/

namespace QueryOptimizer.Equivalence

variable {q other : Equivalence} {entries : List Entry} {members : List Var} {constant : Option Scalar}
  {classes : List EquivalenceClass} {f : EquivalenceClass → List Var} {v w : Var} {value : Scalar}

/-! ## Added classes -/

/-- What is recorded when a class is added. -/
def classEntries : List Var → Option Scalar → List Entry
  | [], _ => []
  | first :: others, constant => others.map (.equal first) ++ constant.toList.map (.value first)

/-- What is recorded when some classes are added. -/
def addedEntries (f : EquivalenceClass → List Var) (classes : List EquivalenceClass) : List Entry :=
  classes.flatMap fun c => classEntries (f c) c.constant

theorem Generated.addClass (generated : Generated entries q) (members : List Var)
    (constant : Option Scalar) :
    Generated (entries ++ classEntries members constant) (q.addClass members constant) := by
  cases members with
  | nil => rwa [classEntries, List.append_nil]
  | cons first others =>
    have merged : Generated (entries ++ others.map (.equal first))
        (others.foldl (fun q v => q.merge first v) q) := by
      induction others generalizing entries q with
      | nil => simpa using generated
      | cons v others ih => simpa using ih (generated.merge first v)
    cases constant with
    | none => simpa [classEntries, Equivalence.addClass] using merged
    | some value => simpa [classEntries, Equivalence.addClass] using merged.addConstant first value

theorem Generated.addClasses (generated : Generated entries q) (classes : List EquivalenceClass)
    (f : EquivalenceClass → List Var) :
    Generated (entries ++ addedEntries f classes)
      (classes.foldl (fun r c => r.addClass (f c) c.constant) q) := by
  induction classes generalizing entries q with
  | nil => simpa [addedEntries] using generated
  | cons c classes ih => simpa [addedEntries] using ih (generated.addClass (f c) c.constant)

theorem mem_of_equal_mem (entry : .equal v w ∈ classEntries members constant) :
    v ∈ members ∧ w ∈ members := by
  cases members with
  | nil => cases entry
  | cons first others =>
    obtain ⟨u, listed, same⟩ : ∃ u ∈ others, Entry.equal first u = .equal v w := by
      simpa [classEntries] using entry
    cases same
    exact ⟨List.mem_cons_self, List.mem_cons_of_mem _ listed⟩

theorem mem_of_value_mem (entry : .value v value ∈ classEntries members constant) :
    v ∈ members ∧ constant.isSome = true := by
  cases members with
  | nil => cases entry
  | cons first others =>
    obtain ⟨x, known, same⟩ : ∃ x, constant = some x ∧ Entry.value first x = .value v value := by
      simpa [classEntries] using entry
    cases same
    exact ⟨List.mem_cons_self, by rw [known]; rfl⟩

/-- The members of an added class are linked through the first one, which has its constant. -/
theorem linked_first (inside : v ∈ members)
    (recorded : ∀ e ∈ classEntries members constant, e ∈ entries) :
    ∃ first ∈ members, (∀ w ∈ members, Linked entries first w) ∧
      ∀ value, constant = some value → .value first value ∈ entries := by
  cases members with
  | nil => cases inside
  | cons first others =>
    refine ⟨first, List.mem_cons_self, fun w listed => ?_, fun value known => ?_⟩
    · rcases List.mem_cons.mp listed with rfl | listed
      · exact .refl w
      · exact .rel _ _ (recorded _ (List.mem_append_left _ (List.mem_map_of_mem listed)))
    · refine recorded _ (List.mem_append_right _ ?_)
      rw [known]
      exact List.mem_singleton_self _

theorem linked_first_added {c : EquivalenceClass} (member : c ∈ classes) (inside : v ∈ f c) :
    ∃ first ∈ f c, (∀ w ∈ f c, Linked (addedEntries f classes) first w) ∧
      ∀ value, c.constant = some value → .value first value ∈ addedEntries f classes :=
  linked_first inside fun _ entry => List.mem_flatMap.mpr ⟨c, member, entry⟩

instance : IsEquiv Var (Linked entries) := inferInstanceAs (IsEquiv Var (Relation.EqvGen _))

/-- Variables are linked through added classes exactly in the least equivalence that holds the classes. -/
theorem linked_added_iff : Linked (addedEntries f classes) v w ↔
    Relation.EqvGen (fun v w => ∃ c ∈ classes, v ∈ f c ∧ w ∈ f c) v w := by
  constructor
  · refine Relation.EqvGen.mono (fun v w entry => ?_) v w
    obtain ⟨c, member, entry⟩ := List.mem_flatMap.mp entry
    exact ⟨c, member, mem_of_equal_mem entry⟩
  · refine Relation.EqvGen.eqvGen_le (fun v w together => ?_) v w
    obtain ⟨c, member, inV, inW⟩ := together
    obtain ⟨first, _, center, _⟩ := linked_first_added member inV
    exact ((center v inV).symm _ _).trans _ _ _ (center w inW)

theorem linked_value_iff : (∃ w, Linked (addedEntries f classes) v w ∧
      ∃ value, .value w value ∈ addedEntries f classes) ↔
    ∃ w, Linked (addedEntries f classes) v w ∧ ∃ c ∈ classes, w ∈ f c ∧ c.constant.isSome = true := by
  constructor
  · rintro ⟨w, linked, value, entry⟩
    obtain ⟨c, member, entry⟩ := List.mem_flatMap.mp entry
    exact ⟨w, linked, c, member, mem_of_value_mem entry⟩
  · rintro ⟨w, linked, c, member, inside, known⟩
    obtain ⟨value, known⟩ := Option.isSome_iff_exists.mp known
    obtain ⟨first, _, center, given⟩ := linked_first_added member inside
    exact ⟨first, linked.trans _ _ _ ((center w inside).symm _ _), value, given value known⟩

/-- Disjoint classes are generated by what is recorded when they are added. -/
theorem Disjoint.generated (disjoint : q.Disjoint) (inhabited : ∀ c ∈ q.classes, ∃ v, v ∈ c.members) :
    Generated (addedEntries (·.members.toList) q.classes) q where
  inhabited := inhabited
  linked c member v inV w inW := linked_added_iff.mpr (.rel v w ⟨c, member, inV, inW⟩)
  given c member known := by
    obtain ⟨v, inside⟩ := inhabited c member
    obtain ⟨value, known⟩ := Option.isSome_iff_exists.mp known
    obtain ⟨first, isFirst, _, given⟩ :=
      linked_first_added (f := (·.members.toList)) member (VarSet.mem_def.mp inside)
    exact ⟨first, isFirst, value, given value known⟩
  joined v w entry := by
    obtain ⟨c, member, entry⟩ := List.mem_flatMap.mp entry
    exact ⟨c, member, mem_of_equal_mem entry⟩
  pinned v value entry := by
    obtain ⟨c, member, entry⟩ := List.mem_flatMap.mp entry
    exact ⟨c, member, mem_of_value_mem entry⟩
  disjoint := disjoint

/-! ## Answers after an operation -/

/-- Whether two variables stand in one class. -/
def Shares (q : Equivalence) (v w : Var) : Prop := ∃ c ∈ q.classes, v ∈ c.members ∧ w ∈ c.members

/-- Whether the classes are pairwise disjoint and none of them is empty. -/
def Proper (q : Equivalence) : Prop :=
  (q.classes.Pairwise fun c d => ∀ v ∈ c.members, v ∉ d.members) ∧ ∀ c ∈ q.classes, ∃ v, v ∈ c.members

theorem Generated.proper (generated : Generated entries q) : q.Proper :=
  ⟨disjoint_iff_pairwise.mp generated.disjoint, generated.inhabited⟩

theorem Proper.disjoint (proper : q.Proper) : q.Disjoint := disjoint_iff_pairwise.mpr proper.1

theorem mem_restrict_of {c : EquivalenceClass} {keep : Var → Bool} (member : c ∈ q.classes)
    (inside : v ∈ c.members) (kept : keep v = true)
    (tells : c.constant.isSome = true ∨ ∃ w ∈ c.members, keep w = true ∧ v ≠ w) :
    { c with members := c.members.filter keep } ∈ (q.restrict keep).classes := by
  refine List.mem_filter.mpr ⟨List.mem_map_of_mem member, ?_⟩
  have here : v ∈ c.members.filter keep := VarSet.mem_filter.mpr ⟨inside, kept⟩
  have nonempty : (c.members.filter keep).isEmpty = false := by
    rw [Bool.eq_false_iff, ne_eq, VarSet.isEmpty_iff]
    exact fun none => none v here
  have telling : EquivalenceClass.isTrivial { c with members := c.members.filter keep } = false := by
    rcases tells with known | ⟨w, inW, keptW, different⟩
    · simp [EquivalenceClass.isTrivial, Option.isNone_eq_false_iff.mpr known]
    · have there : w ∈ c.members.filter keep := VarSet.mem_filter.mpr ⟨inW, keptW⟩
      have several : 2 ≤ (c.members.filter keep).size := by
        rw [VarSet.mem_def] at here there
        unfold VarSet.size
        generalize (c.members.filter keep).toList = kept at here there ⊢
        rcases kept with _ | ⟨u, _ | ⟨_, _⟩⟩
        · cases here
        · exact absurd ((List.mem_singleton.mp here).trans (List.mem_singleton.mp there).symm) different
        · simp
      simp [EquivalenceClass.isTrivial, Nat.not_lt.mpr several]
  simp [nonempty, telling]

theorem restrict_proper (disjoint : q.Disjoint) (keep : Var → Bool) : (q.restrict keep).Proper := by
  refine ⟨disjoint_iff_pairwise.mp (disjoint.restrict keep), fun c member => ?_⟩
  have nonempty : ¬ c.members.isEmpty = true := by
    simpa using (Bool.and_eq_true_iff.mp (List.mem_filter.mp member).2).1
  rw [VarSet.isEmpty_iff] at nonempty
  simpa using nonempty

theorem restrict_areEquivalent_iff (disjoint : q.Disjoint) {keep : Var → Bool} (different : v ≠ w) :
    (q.restrict keep).areEquivalent v w = true ↔
      keep v = true ∧ keep w = true ∧ q.areEquivalent v w = true := by
  rw [(disjoint.restrict keep).areEquivalent_iff, (disjoint.restrict keep).mem_membersOf_iff,
    disjoint.areEquivalent_iff, disjoint.mem_membersOf_iff, or_iff_right different, or_iff_right different]
  constructor
  · rintro ⟨c, member, inV, inW⟩
    obtain ⟨d, old, rfl⟩ := mem_restrict member
    obtain ⟨inV, keptV⟩ := VarSet.mem_filter.mp inV
    obtain ⟨inW, keptW⟩ := VarSet.mem_filter.mp inW
    exact ⟨keptV, keptW, d, old, inV, inW⟩
  · rintro ⟨keptV, keptW, c, member, inV, inW⟩
    exact ⟨_, mem_restrict_of member inV keptV (.inr ⟨w, inW, keptW, different⟩),
      VarSet.mem_filter.mpr ⟨inV, keptV⟩, VarSet.mem_filter.mpr ⟨inW, keptW⟩⟩

theorem restrict_isConstant_iff (disjoint : q.Disjoint) {keep : Var → Bool} :
    (q.restrict keep).isConstant v = true ↔ keep v = true ∧ q.isConstant v = true := by
  rw [(disjoint.restrict keep).isConstant_iff, disjoint.isConstant_iff]
  constructor
  · rintro ⟨c, member, inside, known⟩
    obtain ⟨d, old, rfl⟩ := mem_restrict member
    obtain ⟨inside, kept⟩ := VarSet.mem_filter.mp inside
    exact ⟨kept, d, old, inside, known⟩
  · rintro ⟨kept, c, member, inside, known⟩
    exact ⟨_, mem_restrict_of member inside kept (.inl known), VarSet.mem_filter.mpr ⟨inside, kept⟩, known⟩

theorem rename_generated (q : Equivalence) (names : Var → List Var) :
    Generated (addedEntries (·.members.toList.flatMap names) q.classes) (q.rename names) :=
  Generated.nil.addClasses q.classes fun c => c.members.toList.flatMap names

theorem rename_areEquivalent_iff {names : Var → List Var} :
    (q.rename names).areEquivalent v w = true ↔
      Relation.EqvGen (fun x y => ∃ a b, q.Shares a b ∧ x ∈ names a ∧ y ∈ names b) v w := by
  rw [(rename_generated q names).areEquivalent_iff, linked_added_iff]
  refine Eq.to_iff (congrArg (Relation.EqvGen · v w) ?_)
  funext x y
  refine propext ⟨?_, ?_⟩
  · rintro ⟨c, member, fromX, fromY⟩
    obtain ⟨a, inA, renamed⟩ := List.mem_flatMap.mp fromX
    obtain ⟨b, inB, renamed'⟩ := List.mem_flatMap.mp fromY
    exact ⟨a, b, ⟨c, member, inA, inB⟩, renamed, renamed'⟩
  · rintro ⟨a, b, ⟨c, member, inA, inB⟩, renamed, renamed'⟩
    exact ⟨c, member, List.mem_flatMap.mpr ⟨a, inA, renamed⟩, List.mem_flatMap.mpr ⟨b, inB, renamed'⟩⟩

theorem rename_isConstant_iff (disjoint : q.Disjoint) {names : Var → List Var} :
    (q.rename names).isConstant v = true ↔ ∃ w b, (q.rename names).areEquivalent v w = true ∧
      w ∈ names b ∧ q.isConstant b = true := by
  simp only [(rename_generated q names).isConstant_iff, linked_value_iff,
    (rename_generated q names).areEquivalent_iff, disjoint.isConstant_iff]
  constructor
  · rintro ⟨w, linked, c, member, renamed, known⟩
    obtain ⟨b, inB, renamed⟩ := List.mem_flatMap.mp renamed
    exact ⟨w, b, linked, renamed, c, member, inB, known⟩
  · rintro ⟨w, b, linked, renamed, c, member, inB, known⟩
    exact ⟨w, linked, c, member, List.mem_flatMap.mpr ⟨b, inB, renamed⟩, known⟩

theorem union_generated (proper : q.Proper) (other : Equivalence) :
    Generated (addedEntries (·.members.toList) (q.classes ++ other.classes)) (q.union other) := by
  rw [addedEntries, List.flatMap_append]
  exact (proper.disjoint.generated proper.2).addClasses other.classes fun c => c.members.toList

theorem union_areEquivalent_iff (proper : q.Proper) (disjoint : other.Disjoint) :
    (q.union other).areEquivalent v w = true ↔ Relation.EqvGen (fun x y =>
      q.areEquivalent x y = true ∨ other.areEquivalent x y = true) v w := by
  simp only [(union_generated proper other).areEquivalent_iff, linked_added_iff,
    proper.disjoint.areEquivalent_iff, proper.disjoint.mem_membersOf_iff, disjoint.areEquivalent_iff,
    disjoint.mem_membersOf_iff, List.mem_append]
  constructor
  · refine Relation.EqvGen.mono ?_ v w
    rintro x y ⟨c, here | there, together⟩
    · exact .inl (.inr ⟨c, here, together⟩)
    · exact .inr (.inr ⟨c, there, together⟩)
  · refine Relation.EqvGen.eqvGen_le ?_ v w
    rintro x y ((rfl | ⟨c, here, together⟩) | (rfl | ⟨c, there, together⟩))
    · exact .refl x
    · exact .rel _ _ ⟨c, .inl here, together⟩
    · exact .refl x
    · exact .rel _ _ ⟨c, .inr there, together⟩

theorem union_isConstant_iff (proper : q.Proper) (disjoint : other.Disjoint) :
    (q.union other).isConstant v = true ↔ ∃ w, (q.union other).areEquivalent v w = true ∧
      (q.isConstant w = true ∨ other.isConstant w = true) := by
  simp only [(union_generated proper other).isConstant_iff, linked_value_iff,
    (union_generated proper other).areEquivalent_iff, proper.disjoint.isConstant_iff,
    disjoint.isConstant_iff, List.mem_append, or_and_right, exists_or]
  rfl

/-- The classes of restrictions, renamings and unions are disjoint and not empty. A restriction forgets
    variables and nothing else, a renaming stands for the least equivalence of all names of variables in one
    class, and a union for the least one that holds both. Constants go along with the classes. -/
theorem operations_act_on_equivalence (proper : q.Proper) (proper' : other.Proper) (keep : Var → Bool)
    (names : Var → List Var) :
    ((q.restrict keep).Proper ∧ (q.rename names).Proper ∧ (q.union other).Proper) ∧
    ((∀ v w, v ≠ w → ((q.restrict keep).areEquivalent v w = true ↔
        keep v = true ∧ keep w = true ∧ q.areEquivalent v w = true)) ∧
      ∀ v, (q.restrict keep).isConstant v = true ↔ keep v = true ∧ q.isConstant v = true) ∧
    ((∀ v w, (q.rename names).areEquivalent v w = true ↔
        Relation.EqvGen (fun x y => ∃ a b, q.Shares a b ∧ x ∈ names a ∧ y ∈ names b) v w) ∧
      ∀ v, (q.rename names).isConstant v = true ↔ ∃ w b, (q.rename names).areEquivalent v w = true ∧
        w ∈ names b ∧ q.isConstant b = true) ∧
    (∀ v w, (q.union other).areEquivalent v w = true ↔ Relation.EqvGen (fun x y =>
        q.areEquivalent x y = true ∨ other.areEquivalent x y = true) v w) ∧
      ∀ v, (q.union other).isConstant v = true ↔ ∃ w, (q.union other).areEquivalent v w = true ∧
        (q.isConstant w = true ∨ other.isConstant w = true) :=
  ⟨⟨restrict_proper proper.disjoint keep, (rename_generated q names).proper,
      (union_generated proper other).proper⟩,
    ⟨fun _ _ different => restrict_areEquivalent_iff proper.disjoint different,
      fun _ => restrict_isConstant_iff proper.disjoint⟩,
    ⟨fun _ _ => rename_areEquivalent_iff, fun _ => rename_isConstant_iff proper.disjoint⟩,
    fun _ _ => union_areEquivalent_iff proper proper'.disjoint,
    fun _ => union_isConstant_iff proper proper'.disjoint⟩

/-- One name of two classes joins them, and a chain through both sides of a union reaches the constant. -/
theorem operations_act_on_equivalence_chained :
    (recorded [.equal 1 2, .equal 3 4]).Proper ∧
    ((recorded [.equal 1 2, .equal 3 4]).rename fun v => if v = 1 ∨ v = 3 then [v, 9] else []).areEquivalent
      1 3 = true ∧
    ((recorded [.equal 1 2, .equal 3 4]).union (recorded [.equal 2 3, .value 4 (.boolean true)])).isConstant
      1 = true := by
  have proper : (recorded [.equal 1 2, .equal 3 4]).Proper := (recorded_generated _).proper
  obtain ⟨_, _, ⟨renamed, _⟩, _, constant⟩ := operations_act_on_equivalence proper
    (recorded_generated [.equal 2 3, .value 4 (.boolean true)]).proper (fun _ => true)
    fun v => if v = 1 ∨ v = 3 then [v, 9] else []
  refine ⟨proper, (renamed 1 3).mpr (.trans _ 9 _ (.rel _ _ ?_) (.rel _ _ ?_)),
    (constant 1).mpr ⟨4, by decide, .inr (by decide)⟩⟩
  · exact ⟨1, 1, ⟨⟨.ofList [1, 2], none⟩, by decide, by decide, by decide⟩, by decide, by decide⟩
  · exact ⟨3, 3, ⟨⟨.ofList [3, 4], none⟩, by decide, by decide, by decide⟩, by decide, by decide⟩

end QueryOptimizer.Equivalence
