import Mathlib
import QueryOptimizer.Proofs.Facts.Closure

/-! # The equivalence that recorded equalities generate

Equalities and values are recorded one after the other, in any order and possibly more than once.
The classes are then those of the least equivalence that holds all recorded equalities, a class has
a constant if one of its members was given one, and so none of the answers depends on the order.
-/

namespace QueryOptimizer

namespace EquivalenceClass

variable {c d e : EquivalenceClass} {v : Var} {value : Scalar}

/-- Whether a class knows all that another one knows. -/
structure Extends (c d : EquivalenceClass) : Prop where
  members : ∀ v ∈ d.members, v ∈ c.members
  constant : d.constant.isSome = true → c.constant.isSome = true

theorem Extends.refl (c : EquivalenceClass) : c.Extends c := ⟨fun _ inside => inside, id⟩

theorem extends_insert (c : EquivalenceClass) (v : Var) : (c.insert v).Extends c :=
  ⟨fun _ inside => VarSet.mem_insert.mpr (.inr inside), id⟩

theorem extends_pin (c : EquivalenceClass) (value : Scalar) : (c.pin value).Extends c :=
  ⟨fun _ inside => inside, fun _ => by simp [pin]⟩

theorem absorb_extends (c d : EquivalenceClass) : (c.absorb d).Extends c ∧ (c.absorb d).Extends d := by
  refine ⟨⟨fun _ inside => VarSet.mem_union.mpr (.inl inside), fun known => ?_⟩,
    ⟨fun _ inside => VarSet.mem_union.mpr (.inr inside), fun known => ?_⟩⟩
  · simp [absorb, known]
  · simp [absorb, known]

end EquivalenceClass

namespace Equivalence

variable {q : Equivalence} {a b v w left right : Var} {c d : EquivalenceClass} {value : Scalar}

theorem mem_modify_or {α : Type} {l : List α} {x : α} (member : x ∈ l) (i : Nat) (f : α → α) :
    x ∈ l.modify i f ∨ f x ∈ l.modify i f := by
  obtain ⟨j, position⟩ := List.mem_iff_getElem?.mp member
  have found : (l.modify i f)[j]? = some (if i = j then f x else x) := by
    rw [List.getElem?_modify, position]
    rfl
  split at found
  · exact .inr (List.mem_of_getElem? found)
  · exact .inl (List.mem_of_getElem? found)

theorem exists_extends_modify {i : Nat} {f : EquivalenceClass → EquivalenceClass}
    (grows : ∀ c, (f c).Extends c) (member : c ∈ q.classes) :
    ∃ e ∈ q.classes.modify i f, e.Extends c := by
  rcases mem_modify_or member i f with same | changed
  · exact ⟨c, same, .refl c⟩
  · exact ⟨f c, changed, grows c⟩

/-- The class of a joined pair is there, and holds both. -/
theorem mem_absorb_of {low high : Nat} (below : low < high) (atLow : q.classes[low]? = some c)
    (atHigh : q.classes[high]? = some d) : c.absorb d ∈ (q.absorb low high).classes := by
  unfold absorb
  rw [atHigh]
  refine List.mem_of_getElem? (i := low) ?_
  rw [List.getElem?_modify, List.getElem?_eraseIdx_of_lt below, atLow]
  simp

theorem exists_extends_absorb {low high : Nat} {e : EquivalenceClass} (below : low < high)
    (atLow : q.classes[low]? = some c) (atHigh : q.classes[high]? = some d) (member : e ∈ q.classes) :
    ∃ e' ∈ (q.absorb low high).classes, e'.Extends e := by
  obtain ⟨j, atJ⟩ := List.mem_iff_getElem?.mp member
  by_cases isHigh : j = high
  · subst isHigh
    cases atJ.symm.trans atHigh
    exact ⟨_, mem_absorb_of below atLow atHigh, (EquivalenceClass.absorb_extends c _).2⟩
  · have stays : e ∈ q.classes.eraseIdx high := List.mem_eraseIdx_iff_getElem?.mpr ⟨j, isHigh, atJ⟩
    unfold absorb
    rw [atHigh]
    exact exists_extends_modify (q := ⟨q.classes.eraseIdx high⟩)
      (fun kept => (EquivalenceClass.absorb_extends kept d).1) stays

/-- After a merge some class holds both variables, and every class went into one that knows as much. -/
theorem merge_extends (q : Equivalence) (left right : Var) :
    (∃ c ∈ (q.merge left right).classes, left ∈ c.members ∧ right ∈ c.members) ∧
    ∀ d ∈ q.classes, ∃ c ∈ (q.merge left right).classes, c.Extends d := by
  unfold merge
  split
  · refine ⟨⟨_, List.mem_append_right _ List.mem_cons_self, by simp, by simp⟩, fun d member => ?_⟩
    exact ⟨d, List.mem_append_left _ member, .refl d⟩
  · rename_i i atLeft _
    obtain ⟨d, position, inside⟩ := position?_some atLeft
    refine ⟨⟨d.insert right, ?_, VarSet.mem_insert.mpr (.inr inside), VarSet.mem_insert.mpr (.inl rfl)⟩,
      fun d => exists_extends_modify (EquivalenceClass.extends_insert · right)⟩
    exact List.mem_of_getElem? (by rw [List.getElem?_modify_eq, position]; rfl)
  · rename_i i _ atRight
    obtain ⟨d, position, inside⟩ := position?_some atRight
    refine ⟨⟨d.insert left, ?_, VarSet.mem_insert.mpr (.inl rfl), VarSet.mem_insert.mpr (.inr inside)⟩,
      fun d => exists_extends_modify (EquivalenceClass.extends_insert · left)⟩
    exact List.mem_of_getElem? (by rw [List.getElem?_modify_eq, position]; rfl)
  · rename_i l r atLeft atRight
    obtain ⟨c, position, inC⟩ := position?_some atLeft
    obtain ⟨d, position', inD⟩ := position?_some atRight
    split
    · rename_i same
      subst same
      cases position.symm.trans position'
      exact ⟨⟨c, List.mem_of_getElem? position, inC, inD⟩, fun d member => ⟨d, member, .refl d⟩⟩
    · rename_i different
      rcases Nat.lt_or_gt_of_ne different with less | more
      · rw [Nat.min_eq_left less.le, Nat.max_eq_right less.le]
        obtain ⟨fromC, fromD⟩ := EquivalenceClass.absorb_extends c d
        exact ⟨⟨_, mem_absorb_of less position position', fromC.members _ inC, fromD.members _ inD⟩,
          fun e => exists_extends_absorb less position position'⟩
      · rw [Nat.min_eq_right more.le, Nat.max_eq_left more.le]
        obtain ⟨fromD, fromC⟩ := EquivalenceClass.absorb_extends d c
        exact ⟨⟨_, mem_absorb_of more position' position, fromC.members _ inC, fromD.members _ inD⟩,
          fun e => exists_extends_absorb more position' position⟩

/-- After a value was recorded, the variable has a class with a constant, and every class is still
    there or has got a constant. -/
theorem addConstant_extends (q : Equivalence) (v : Var) (value : Scalar) :
    (∃ c ∈ (q.addConstant v value).classes, v ∈ c.members ∧ c.constant.isSome = true) ∧
    ∀ d ∈ q.classes, ∃ c ∈ (q.addConstant v value).classes, c.Extends d := by
  unfold addConstant
  split
  · rename_i i found
    obtain ⟨d, position, inside⟩ := position?_some found
    refine ⟨⟨d.pin value, ?_, inside, by simp [EquivalenceClass.pin]⟩,
      fun d => exists_extends_modify (EquivalenceClass.extends_pin · value)⟩
    exact List.mem_of_getElem? (by rw [List.getElem?_modify_eq, position]; rfl)
  · refine ⟨⟨_, List.mem_append_right _ List.mem_cons_self, by simp, rfl⟩, fun d member => ?_⟩
    exact ⟨d, List.mem_append_left _ member, .refl d⟩

/-! ## Sequences of records -/

/-- What can be recorded: that two variables are equal, or the value of one. -/
inductive Entry where
  | equal (left right : Var)
  | value (v : Var) (value : Scalar)
  deriving DecidableEq

def record (q : Equivalence) : Entry → Equivalence
  | .equal left right => q.merge left right
  | .value v value => q.addConstant v value

/-- The classes after all entries were recorded, first to last. -/
def recorded (entries : List Entry) : Equivalence := entries.foldl record ⟨[]⟩

/-- Whether a chain of recorded equalities leads from one variable to the other. -/
def Linked (entries : List Entry) : Var → Var → Prop :=
  Relation.EqvGen fun v w => .equal v w ∈ entries

theorem Linked.mono {entries entries' : List Entry} (more : ∀ e ∈ entries, e ∈ entries')
    (linked : Linked entries v w) : Linked entries' v w :=
  Relation.EqvGen.mono (fun _ _ member => more _ member) _ _ linked

/-- Whether all members of a class are linked. -/
def LinkedClass (entries : List Entry) (c : EquivalenceClass) : Prop :=
  ∀ v ∈ c.members, ∀ w ∈ c.members, Linked entries v w

namespace LinkedClass

variable {entries : List Entry}

theorem of_center (w : Var) (center : ∀ v ∈ c.members, Linked entries v w) : LinkedClass entries c :=
  fun v inV u inU => (center v inV).trans _ _ _ ((center u inU).symm _ _)

theorem insert (linked : LinkedClass entries c) (inside : w ∈ c.members) (pair : Linked entries v w) :
    LinkedClass entries (c.insert v) := by
  refine of_center w fun u inU => ?_
  rcases VarSet.mem_insert.mp inU with rfl | inU
  · exact pair
  · exact linked u inU w inside

theorem absorb (linked : LinkedClass entries c) (linked' : LinkedClass entries d)
    (inC : v ∈ c.members) (inD : w ∈ d.members) (pair : Linked entries v w) :
    LinkedClass entries (c.absorb d) := by
  refine of_center v fun u inU => ?_
  rcases VarSet.mem_union.mp inU with inU | inU
  · exact linked u inU v inC
  · exact (linked' u inU w inD).trans _ _ _ (pair.symm _ _)

end LinkedClass

/-- The classes say no more than the entries: members are linked, and a constant was given to one
    of them. -/
structure Sound (entries : List Entry) (q : Equivalence) : Prop where
  inhabited : ∀ c ∈ q.classes, ∃ v, v ∈ c.members
  linked : ∀ c ∈ q.classes, LinkedClass entries c
  given : ∀ c ∈ q.classes, c.constant.isSome = true →
    ∃ v ∈ c.members, ∃ value, .value v value ∈ entries

/-- The classes say all that the entries say. -/
structure Complete (entries : List Entry) (q : Equivalence) : Prop where
  joined : ∀ v w, .equal v w ∈ entries → ∃ c ∈ q.classes, v ∈ c.members ∧ w ∈ c.members
  pinned : ∀ v value, .value v value ∈ entries →
    ∃ c ∈ q.classes, v ∈ c.members ∧ c.constant.isSome = true

/-- A record keeps what the classes said. -/
theorem Complete.of_extends {entries : List Entry} {q' : Equivalence} (complete : Complete entries q)
    (grown : ∀ d ∈ q.classes, ∃ c ∈ q'.classes, c.Extends d) : Complete entries q' where
  joined v w entry := by
    obtain ⟨d, member, inV, inW⟩ := complete.joined v w entry
    obtain ⟨c, member', extend⟩ := grown d member
    exact ⟨c, member', extend.members v inV, extend.members w inW⟩
  pinned v value entry := by
    obtain ⟨d, member, inV, known⟩ := complete.pinned v value entry
    obtain ⟨c, member', extend⟩ := grown d member
    exact ⟨c, member', extend.members v inV, extend.constant known⟩

section

variable {entries : List Entry}

theorem Sound.mono {entries' : List Entry} (sound : Sound entries q)
    (more : ∀ e ∈ entries, e ∈ entries') : Sound entries' q where
  inhabited := sound.inhabited
  linked c member v inV w inW := (sound.linked c member v inV w inW).mono more
  given c member known := by
    obtain ⟨v, inside, value, entry⟩ := sound.given c member known
    exact ⟨v, inside, value, more _ entry⟩

theorem Sound.merge (sound : Sound entries q) (pair : Linked entries left right) :
    Sound entries (q.merge left right) := by
  constructor
  · intro c member
    rcases mem_merge member with same | rfl | ⟨d, _, inside, rfl⟩ | ⟨d, _, inside, rfl⟩ |
      ⟨d, inD, e, _, rfl, _⟩
    · exact sound.inhabited c same
    · exact ⟨left, by simp⟩
    · exact ⟨left, VarSet.mem_insert.mpr (.inr inside)⟩
    · exact ⟨right, VarSet.mem_insert.mpr (.inr inside)⟩
    · obtain ⟨v, inside⟩ := sound.inhabited d inD
      exact ⟨v, VarSet.mem_union.mpr (.inl inside)⟩
  · intro c member
    rcases mem_merge member with same | rfl | ⟨d, inD, inside, rfl⟩ | ⟨d, inD, inside, rfl⟩ |
      ⟨d, inD, e, inE, rfl, ⟨atLeft, atRight⟩ | ⟨atRight, atLeft⟩⟩
    · exact sound.linked c same
    · refine .of_center right fun v inV => ?_
      rcases List.mem_pair.mp (VarSet.mem_ofList.mp inV) with rfl | rfl
      · exact pair
      · exact .refl _
    · exact (sound.linked d inD).insert inside (pair.symm _ _)
    · exact (sound.linked d inD).insert inside pair
    · exact (sound.linked d inD).absorb (sound.linked e inE) atLeft atRight pair
    · exact (sound.linked d inD).absorb (sound.linked e inE) atRight atLeft (pair.symm _ _)
  · intro c member known
    have before : ∀ d ∈ q.classes, d.constant.isSome = true → c.Extends d →
        ∃ v ∈ c.members, ∃ value, .value v value ∈ entries := by
      intro d inD known extend
      obtain ⟨v, inV, entry⟩ := sound.given d inD known
      exact ⟨v, extend.members v inV, entry⟩
    rcases mem_merge member with same | rfl | ⟨d, inD, _, rfl⟩ | ⟨d, inD, _, rfl⟩ |
      ⟨d, inD, e, inE, rfl, _⟩
    · exact sound.given c same known
    · cases known
    · exact before d inD known (d.extends_insert right)
    · exact before d inD known (d.extends_insert left)
    · rw [EquivalenceClass.absorb, Option.isSome_or, Bool.or_eq_true] at known
      rcases known with known | known
      · exact before d inD known (d.absorb_extends e).1
      · exact before e inE known (d.absorb_extends e).2

theorem Sound.addConstant (sound : Sound entries q) (entry : .value v value ∈ entries) :
    Sound entries (q.addConstant v value) := by
  constructor
  · intro c member
    rcases mem_addConstant member with same | rfl | ⟨d, _, inside, rfl⟩
    · exact sound.inhabited c same
    · exact ⟨v, VarSet.mem_singleton.mpr rfl⟩
    · exact ⟨v, inside⟩
  · intro c member
    rcases mem_addConstant member with same | rfl | ⟨d, inD, _, rfl⟩
    · exact sound.linked c same
    · refine .of_center v fun u inU => ?_
      rw [VarSet.mem_singleton.mp inU]
      exact .refl _
    · exact sound.linked d inD
  · intro c member known
    rcases mem_addConstant member with same | rfl | ⟨d, _, inside, rfl⟩
    · exact sound.given c same known
    · exact ⟨v, VarSet.mem_singleton.mpr rfl, value, entry⟩
    · exact ⟨v, inside, value, entry⟩

end

/-- The classes are disjoint and say exactly what the entries say. -/
structure Generated (entries : List Entry) (q : Equivalence) : Prop
    extends Sound entries q, Complete entries q where
  disjoint : q.Disjoint

namespace Generated

variable {entries : List Entry}

theorem nil : Generated [] ⟨[]⟩ where
  inhabited _ impossible := nomatch impossible
  linked _ impossible := nomatch impossible
  given _ impossible := nomatch impossible
  joined _ _ impossible := nomatch impossible
  pinned _ _ impossible := nomatch impossible
  disjoint := .empty

variable (generated : Generated entries q)

include generated

theorem merge (left right : Var) : Generated (entries ++ [.equal left right]) (q.merge left right) := by
  obtain ⟨both, grown⟩ := q.merge_extends left right
  have sound := generated.toSound.mono fun e => List.mem_append_left [Entry.equal left right]
  have complete := generated.toComplete.of_extends grown
  refine ⟨sound.merge (.rel _ _ (by simp)), ⟨fun v w member => ?_, fun v value member => ?_⟩,
    generated.disjoint.merge⟩
  · rcases List.mem_append.mp member with before | now
    · exact complete.joined v w before
    · cases List.mem_singleton.mp now
      exact both
  · exact complete.pinned v value (by simpa using member)

theorem addConstant (v : Var) (value : Scalar) :
    Generated (entries ++ [.value v value]) (q.addConstant v value) := by
  obtain ⟨here, grown⟩ := q.addConstant_extends v value
  have sound := generated.toSound.mono fun e => List.mem_append_left [Entry.value v value]
  have complete := generated.toComplete.of_extends grown
  refine ⟨sound.addConstant (by simp), ⟨fun u w member => ?_, fun u value' member => ?_⟩,
    generated.disjoint.addConstant⟩
  · exact complete.joined u w (by simpa using member)
  · rcases List.mem_append.mp member with before | now
    · exact complete.pinned u value' before
    · cases List.mem_singleton.mp now
      exact here

/-- Variables are equivalent if a chain of recorded equalities links them. -/
theorem areEquivalent_iff : q.areEquivalent v w = true ↔ Linked entries v w := by
  rw [generated.disjoint.areEquivalent_iff]
  constructor
  · rw [generated.disjoint.mem_membersOf_iff]
    rintro (rfl | ⟨c, member, inV, inW⟩)
    · exact .refl v
    · exact generated.linked c member v inV w inW
  · intro linked
    induction linked with
    | rel v w entry => exact generated.disjoint.mem_membersOf_iff.mpr (.inr (generated.joined v w entry))
    | refl v => exact mem_membersOf_self q v
    | symm v w _ ih => exact generated.disjoint.mem_symm ih
    | trans u v w _ _ first second =>
      rwa [generated.disjoint.membersOf_of_mem first] at second

theorem isConstant_iff :
    q.isConstant v = true ↔ ∃ w, Linked entries v w ∧ ∃ value, .value w value ∈ entries := by
  constructor
  · intro known
    obtain ⟨c, member, inside, known⟩ := generated.disjoint.isConstant_iff.mp known
    obtain ⟨w, inW, entry⟩ := generated.given c member known
    exact ⟨w, generated.linked c member v inside w inW, entry⟩
  · rintro ⟨w, linked, value, entry⟩
    have equivalent := generated.disjoint.areEquivalent_iff.mp (generated.areEquivalent_iff.mpr linked)
    rw [← isConstant_of_mem generated.disjoint equivalent]
    exact generated.disjoint.isConstant_iff.mpr (generated.pinned w value entry)

/-- The representative is the smallest of the linked variables. -/
theorem isLeast_representativeVar : IsLeast {w | Linked entries v w} (q.representativeVar v) := by
  have linked : ∀ w, Linked entries v w ↔ w ∈ q.membersOf v := fun w => by
    rw [← generated.areEquivalent_iff, generated.disjoint.areEquivalent_iff]
  refine ⟨(linked _).mpr (representativeVar_mem q v), fun w chain => ?_⟩
  exact representativeVar_le ((linked w).mp chain)

theorem representativeVar_eq_iff :
    q.representativeVar v = q.representativeVar w ↔ Linked entries v w := by
  rw [← generated.areEquivalent_iff, generated.disjoint.areEquivalent_iff]
  constructor
  · intro same
    have atRepresentative := representativeVar_mem q v
    rw [← generated.disjoint.membersOf_of_mem atRepresentative, same,
      generated.disjoint.membersOf_of_mem (representativeVar_mem q w)]
    exact mem_membersOf_self q w
  · intro equivalent
    exact (representativeVar_of_mem generated.disjoint equivalent).symm

theorem congr {entries' : List Entry} (same : ∀ e, e ∈ entries ↔ e ∈ entries') :
    Generated entries' q where
  toSound := generated.toSound.mono fun e => (same e).mp
  joined v w entry := generated.joined v w ((same _).mpr entry)
  pinned v value entry := generated.pinned v value ((same _).mpr entry)
  disjoint := generated.disjoint

end Generated

theorem recorded_generated (entries : List Entry) : Generated entries (recorded entries) := by
  induction entries using List.reverseRecOn with
  | nil => exact .nil
  | append_singleton entries entry ih =>
    unfold recorded at ih ⊢
    rw [List.foldl_append]
    cases entry with
    | equal left right => exact ih.merge left right
    | value v value => exact ih.addConstant v value

/-- After any sequence of records the classes are disjoint and not empty, the equivalent variables are
    those that recorded equalities link, the constant ones are linked to one with a recorded value, and
    the smallest linked variable represents each. Only which entries were recorded matters. -/
theorem recorded_answers (entries : List Entry) :
    ((recorded entries).classes.Pairwise fun c d => ∀ v ∈ c.members, v ∉ d.members) ∧
    (∀ c ∈ (recorded entries).classes, ∃ v, v ∈ c.members) ∧
    (∀ v w, (recorded entries).areEquivalent v w = true ↔ Linked entries v w) ∧
    (∀ v, (recorded entries).isConstant v = true ↔
      ∃ w, Linked entries v w ∧ ∃ value, .value w value ∈ entries) ∧
    (∀ v, IsLeast {w | Linked entries v w} ((recorded entries).representativeVar v)) ∧
    (∀ v w, (recorded entries).representativeVar v = (recorded entries).representativeVar w ↔
      (recorded entries).areEquivalent v w = true) ∧
    ∀ entries', (∀ e, e ∈ entries' ↔ e ∈ entries) →
      (recorded entries').areEquivalent = (recorded entries).areEquivalent ∧
      (recorded entries').isConstant = (recorded entries).isConstant ∧
      (recorded entries').representativeVar = (recorded entries).representativeVar := by
  have generated := recorded_generated entries
  refine ⟨disjoint_iff_pairwise.mp generated.disjoint, generated.inhabited,
    fun v w => generated.areEquivalent_iff, fun v => generated.isConstant_iff,
    fun v => generated.isLeast_representativeVar,
    fun v w => generated.representativeVar_eq_iff.trans generated.areEquivalent_iff.symm, ?_⟩
  intro entries' same
  have generated' := (recorded_generated entries').congr same
  refine ⟨?_, ?_, ?_⟩
  · funext v w
    exact Bool.eq_iff_iff.mpr (generated'.areEquivalent_iff.trans generated.areEquivalent_iff.symm)
  · funext v
    exact Bool.eq_iff_iff.mpr (generated'.isConstant_iff.trans generated.isConstant_iff.symm)
  · funext v
    exact generated'.isLeast_representativeVar.unique generated.isLeast_representativeVar

/-- Two records of one pair, a variable merged with itself and a value, forwards and backwards. -/
theorem recorded_answers_backwards :
    (recorded [.equal 7 4, .value 9 (.boolean true), .equal 5 5, .equal 4 9, .equal 7 4]).areEquivalent =
      (recorded [.equal 7 4, .equal 4 9, .equal 5 5, .value 9 (.boolean true), .equal 7 4]).areEquivalent ∧
    (recorded [.equal 7 4, .equal 4 9, .equal 5 5, .value 9 (.boolean true), .equal 7 4]).isConstant 7 =
      true := by
  obtain ⟨_, _, _, _, _, _, order⟩ :=
    recorded_answers [.equal 7 4, .equal 4 9, .equal 5 5, .value 9 (.boolean true), .equal 7 4]
  refine ⟨(order _ fun e => ?_).1, by decide⟩
  simp only [List.mem_cons]
  tauto

end Equivalence

end QueryOptimizer
