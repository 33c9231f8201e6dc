import Mathlib
import QueryOptimizer.Proofs.Facts.Scope
import QueryOptimizer.Proofs.Relational.Expr

/-! # Facts that hold

Facts hold in a list of tuples if every tuple gives one value to each class, the constant one if
there is one, and any two tuples that agree on the head of a dependency agree on its tail. All
operations on facts keep this.
-/

namespace QueryOptimizer

/-- Whether a tuple gives one value to a class, the constant of the class if it has one. -/
structure EquivalenceClass.HoldsIn (c : EquivalenceClass) (t : Tuple) : Prop where
  equal : ∀ v ∈ c.members, ∀ w ∈ c.members, t v = t w
  constant : ∀ value, c.constant = some value → ∀ v ∈ c.members, t v = some value

def Equivalence.HoldsIn (q : Equivalence) (t : Tuple) : Prop := ∀ c ∈ q.classes, c.HoldsIn t

def Dependency.HoldsIn (d : Dependency) (ts : List Tuple) : Prop :=
  ∀ t ∈ ts, ∀ u ∈ ts, (∀ v ∈ d.head, t v = u v) → ∀ v ∈ d.tail, t v = u v

/-- Whether facts are true of a list of tuples. -/
structure Facts.HoldIn (facts : Facts) (ts : List Tuple) : Prop where
  equivalence : ∀ t ∈ ts, facts.equivalence.HoldsIn t
  dependencies : ∀ d ∈ facts.dependencies, d.HoldsIn ts

namespace EquivalenceClass

variable {c d : EquivalenceClass} {t : Tuple} {v w : Var} {value : Scalar}

theorem HoldsIn.insert (holds : c.HoldsIn t) (member : v ∈ c.members) (same : t v = t w) :
    (c.insert w).HoldsIn t := by
  have all : ∀ u ∈ (c.insert w).members, t u = t v := by
    intro u inside
    rcases VarSet.mem_insert.mp inside with rfl | old
    · exact same.symm
    · exact holds.equal u old v member
  refine ⟨fun u hu u' hu' => (all u hu).trans (all u' hu').symm, fun value known u hu => ?_⟩
  rw [all u hu]
  exact holds.constant value known v member

theorem HoldsIn.absorb (holds : c.HoldsIn t) (others : d.HoldsIn t) (member : v ∈ c.members)
    (other : w ∈ d.members) (same : t v = t w) : (c.absorb d).HoldsIn t := by
  have all : ∀ u ∈ (c.absorb d).members, t u = t v := by
    intro u inside
    rcases VarSet.mem_union.mp inside with left | right
    · exact holds.equal u left v member
    · exact (others.equal u right w other).trans same.symm
  refine ⟨fun u hu u' hu' => (all u hu).trans (all u' hu').symm, fun value known u hu => ?_⟩
  rw [all u hu]
  rcases Option.or_eq_some_iff.mp known with left | ⟨_, right⟩
  · exact holds.constant value left v member
  · exact same.trans (others.constant value right w other)

theorem HoldsIn.pin (holds : c.HoldsIn t) (member : v ∈ c.members) (same : t v = some value) :
    (c.pin value).HoldsIn t := by
  refine ⟨holds.equal, fun value' known u hu => ?_⟩
  rcases Option.or_eq_some_iff.mp known with old | ⟨_, new⟩
  · exact holds.constant value' old u hu
  · cases new
    exact (holds.equal u hu v member).trans same

theorem HoldsIn.filter (holds : c.HoldsIn t) (keep : Var → Bool) :
    HoldsIn { c with members := c.members.filter keep } t :=
  ⟨fun v hv w hw => holds.equal v (VarSet.mem_filter.mp hv).1 w (VarSet.mem_filter.mp hw).1,
    fun value known v hv => holds.constant value known v (VarSet.mem_filter.mp hv).1⟩

end EquivalenceClass

namespace Equivalence

variable {q other : Equivalence} {t : Tuple} {v w left right : Var} {value : Scalar}

theorem HoldsIn.empty (t : Tuple) : HoldsIn {} t := fun _ impossible => by cases impossible

section

variable (holds : q.HoldsIn t)

include holds

theorem HoldsIn.merge (same : t left = t right) : (q.merge left right).HoldsIn t := by
  intro c member
  rcases mem_merge member with old | rfl | ⟨d, old, inside, rfl⟩ | ⟨d, old, inside, rfl⟩ |
    ⟨d, oldD, e, oldE, rfl, ⟨inD, inE⟩ | ⟨inD, inE⟩⟩
  · exact holds c old
  · have all : ∀ u ∈ VarSet.ofList [left, right], t u = t left := by
      intro u inside
      rcases (by simpa using inside : u = left ∨ u = right) with rfl | rfl
      · rfl
      · exact same.symm
    exact ⟨fun u hu u' hu' => (all u hu).trans (all u' hu').symm, fun _ impossible => by
      cases impossible⟩
  · exact (holds d old).insert inside same
  · exact (holds d old).insert inside same.symm
  · exact (holds d oldD).absorb (holds e oldE) inD inE same
  · exact (holds d oldD).absorb (holds e oldE) inD inE same.symm

theorem HoldsIn.addConstant (same : t v = some value) : (q.addConstant v value).HoldsIn t := by
  intro c member
  rcases mem_addConstant member with old | rfl | ⟨d, old, inside, rfl⟩
  · exact holds c old
  · have all : ∀ u ∈ VarSet.singleton v, t u = some value := by
      intro u inside
      rw [VarSet.mem_singleton.mp inside, same]
    exact ⟨fun u hu u' hu' => (all u hu).trans (all u' hu').symm, fun value' known u hu => by
      cases known; exact all u hu⟩
  · exact (holds d old).pin inside same

theorem HoldsIn.addClass {members : List Var} {constant : Option Scalar}
    (equal : ∀ v ∈ members, ∀ w ∈ members, t v = t w)
    (known : ∀ value, constant = some value → ∀ v ∈ members, t v = some value) :
    (q.addClass members constant).HoldsIn t :=
  addClass_keeps (fun q => q.HoldsIn t) holds
    (fun _ v w hv hw h => h.merge (equal v hv w hw))
    (fun _ v value hv isConstant h => h.addConstant (known value isConstant v hv))

theorem HoldsIn.union (others : other.HoldsIn t) : (q.union other).HoldsIn t := by
  refine foldl_keeps (fun r : Equivalence => r.HoldsIn t) (fun c member r h => ?_) holds
  exact h.addClass (others c member).equal (others c member).constant

theorem HoldsIn.restrict (keep : Var → Bool) : (q.restrict keep).HoldsIn t := by
  intro c member
  obtain ⟨d, old, rfl⟩ := mem_restrict member
  exact (holds d old).filter keep

/-- Facts about a tuple are facts about a tuple that has its values under other names. -/
theorem HoldsIn.rename {u : Tuple} {names : Var → List Var} (named : ∀ v, ∀ w ∈ names v, u w = t v) :
    (q.rename names).HoldsIn u := by
  refine foldl_keeps (fun r : Equivalence => r.HoldsIn u) (fun c member r h => ?_) (.empty u)
  have fromMember : ∀ w ∈ c.members.toList.flatMap names, ∃ v ∈ c.members, u w = t v := by
    intro w inside
    obtain ⟨v, isMember, isName⟩ := List.mem_flatMap.mp inside
    exact ⟨v, isMember, named v w isName⟩
  refine h.addClass (fun w hw w' hw' => ?_) fun value known w hw => ?_
  · obtain ⟨v, hv, value⟩ := fromMember w hw
    obtain ⟨v', hv', value'⟩ := fromMember w' hw'
    rw [value, value', (holds c member).equal v hv v' hv']
  · obtain ⟨v, hv, same⟩ := fromMember w hw
    rw [same, (holds c member).constant value known v hv]

/-- Equivalent variables have one value. -/
theorem HoldsIn.membersOf (member : w ∈ q.membersOf v) : t w = t v := by
  unfold Equivalence.membersOf at member
  cases found : q.classOf? v with
  | none => rw [found] at member; rw [VarSet.mem_singleton.mp member]
  | some c =>
    rw [found] at member
    obtain ⟨isClass, inside⟩ := classOf?_some found
    exact (holds c isClass).equal w member v inside

/-- What holds in a tuple holds in every tuple with the same values. -/
theorem HoldsIn.transfer {u : Tuple} (same : ∀ v, q.Mentions v → u v = t v) : q.HoldsIn u := by
  intro c member
  have each : ∀ v ∈ c.members, u v = t v := fun v inside => same v ⟨c, member, inside⟩
  refine ⟨fun v hv w hw => ?_, fun value known v hv => ?_⟩
  · rw [each v hv, each w hw, (holds c member).equal v hv w hw]
  · rw [each v hv, (holds c member).constant value known v hv]

end

end Equivalence

namespace Dependency

variable {d e : Dependency} {ts us : List Tuple}

theorem HoldsIn.constant {v : Var} {value : Scalar} (known : ∀ t ∈ ts, t v = some value) :
    (Dependency.constant v).HoldsIn ts := by
  intro t ht u hu _ w inside
  rw [VarSet.mem_singleton.mp inside, known t ht, known u hu]

theorem HoldsIn.restrict {vs : List Var} (holds : d.HoldsIn ts) (kept : d.restrict? vs = some e) :
    e.HoldsIn ts := by
  unfold Dependency.restrict? at kept
  dsimp only at kept
  split at kept
  · cases kept
    intro t ht u hu agree v inside
    exact holds t ht u hu agree v (VarSet.mem_filter.mp inside).1
  · cases kept

theorem mapM_head_eq {names : Var → List Var} {vs ws : List Var}
    (chosen : vs.mapM (fun v => (names v).head?) = some ws) :
    ∀ v ∈ vs, ∃ w ∈ names v, w ∈ ws := by
  induction vs generalizing ws with
  | nil => intro v impossible; cases impossible
  | cons first vs ih =>
    rw [List.mapM_cons] at chosen
    obtain ⟨w, here, rest⟩ := Option.bind_eq_some_iff.mp chosen
    obtain ⟨ws', later, shape⟩ := Option.bind_eq_some_iff.mp rest
    cases shape
    intro v member
    rcases List.mem_cons.mp member with rfl | inside
    · exact ⟨w, List.mem_of_head? here, List.mem_cons_self⟩
    · obtain ⟨w', isName, listed⟩ := ih later v inside
      exact ⟨w', isName, List.mem_cons_of_mem _ listed⟩

theorem HoldsIn.rename {names : Var → List Var} (holds : d.HoldsIn ts)
    (named : ∀ u ∈ us, ∃ t ∈ ts, ∀ v, ∀ w ∈ names v, u w = t v)
    (renamed : d.rename? names = some e) : e.HoldsIn us := by
  unfold Dependency.rename? at renamed
  obtain ⟨head, chosen, renamed⟩ := Option.bind_eq_some_iff.mp renamed
  split at renamed
  · cases renamed
  · cases renamed
    intro u hu u' hu' agree w inside
    obtain ⟨t, ht, value⟩ := named u hu
    obtain ⟨t', ht', value'⟩ := named u' hu'
    obtain ⟨v, inTail, isName⟩ := List.mem_flatMap.mp (VarSet.mem_ofList.mp inside)
    rw [value v w isName, value' v w isName]
    refine holds t ht t' ht' (fun v inHead => ?_) v inTail
    obtain ⟨w, isName, listed⟩ := mapM_head_eq chosen v inHead
    rw [← value v w isName, ← value' v w isName]
    exact agree w (VarSet.mem_ofList.mpr listed)

theorem HoldsIn.transfer (holds : d.HoldsIn ts)
    (same : ∀ u ∈ us, ∃ t ∈ ts, ∀ v, d.Mentions v → u v = t v) : d.HoldsIn us := by
  intro u hu u' hu' agree v inTail
  obtain ⟨t, ht, value⟩ := same u hu
  obtain ⟨t', ht', value'⟩ := same u' hu'
  rw [value v (.inr inTail), value' v (.inr inTail)]
  refine holds t ht t' ht' (fun v inHead => ?_) v inTail
  rw [← value v (.inl inHead), ← value' v (.inl inHead)]
  exact agree v inHead

end Dependency

namespace Facts

variable {I : Interpretation} {facts : Facts} {ts us : List Tuple} {v w : Var}

theorem HoldIn.none : Facts.empty.HoldIn ts :=
  ⟨fun t _ => .empty t, fun _ impossible => by cases impossible⟩

section

variable (hold : facts.HoldIn ts)

include hold

/-- What holds in some tuples holds in tuples with the same values of the variables that matter. -/
theorem HoldIn.transfer (same : ∀ u ∈ us, ∃ t ∈ ts, ∀ v, facts.Mentions v → u v = t v) :
    facts.HoldIn us := by
  constructor
  · intro u hu
    obtain ⟨t, ht, value⟩ := same u hu
    exact (hold.equivalence t ht).transfer fun v mention => value v (.inl mention)
  · intro d member
    refine (hold.dependencies d member).transfer fun u hu => ?_
    obtain ⟨t, ht, value⟩ := same u hu
    exact ⟨t, ht, fun v mention => value v (.inr ⟨d, member, mention⟩)⟩

theorem HoldIn.subset (fewer : ∀ u ∈ us, u ∈ ts) : facts.HoldIn us :=
  hold.transfer fun u hu => ⟨u, fewer u hu, fun _ _ => rfl⟩

theorem HoldIn.merge (same : ∀ t ∈ ts, t v = t w) : (facts.merge v w).HoldIn ts :=
  ⟨fun t ht => (hold.equivalence t ht).merge (same t ht), hold.dependencies⟩

theorem HoldIn.addConstant {value : Scalar} (same : ∀ t ∈ ts, t v = some value) :
    (facts.addConstant v value).HoldIn ts :=
  ⟨fun t ht => (hold.equivalence t ht).addConstant (same t ht), hold.dependencies⟩

theorem HoldIn.addDependency {d : Dependency} (holds : d.HoldsIn ts) :
    (facts.addDependency d).HoldIn ts := by
  refine ⟨hold.equivalence, fun e member => ?_⟩
  rcases List.mem_append.mp member with old | new
  · exact hold.dependencies e old
  · exact List.mem_singleton.mp new ▸ holds

theorem HoldIn.restrict (vs : List Var) : (facts.restrict vs).HoldIn ts := by
  refine ⟨fun t ht => (hold.equivalence t ht).restrict _, fun e member => ?_⟩
  obtain ⟨d, old, kept⟩ := List.mem_filterMap.mp member
  exact (hold.dependencies d old).restrict kept

theorem HoldIn.rename {names : Var → List Var}
    (named : ∀ u ∈ us, ∃ t ∈ ts, ∀ v, ∀ w ∈ names v, u w = t v) : (facts.rename names).HoldIn us := by
  constructor
  · intro u hu
    obtain ⟨t, ht, value⟩ := named u hu
    exact (hold.equivalence t ht).rename value
  · intro e member
    obtain ⟨d, old, renamed⟩ := List.mem_filterMap.mp member
    exact (hold.dependencies d old).rename named renamed

end

/-! ## Conditions and assignments -/

theorem equal_of_true {left right : Expr} {hints : Hints} {t : Tuple}
    (holds : (Expr.call .eq [left, right] hints).Evaluates I t (.boolean true)) :
    ∃ x, left.Evaluates I t x ∧ right.Evaluates I t x := by
  obtain ⟨xs, ⟨x, _, rfl, hx, y, _, rfl, hy, rfl⟩, result⟩ := holds
  cases I.eq_identical result
  exact ⟨x, hx, hy⟩

section

variable (hold : facts.HoldIn ts)

include hold

theorem HoldIn.pin {value : Scalar} (same : ∀ t ∈ ts, t v = some value) :
    (if Dependency.constant v ∈ (facts.addConstant v value).dependencies
      then facts.addConstant v value
      else (facts.addConstant v value).addDependency (.constant v)).HoldIn ts := by
  split
  · exact hold.addConstant same
  · exact (hold.addConstant same).addDependency (.constant same)

theorem HoldIn.assumeConjunct {conjunct : Expr}
    (holds : ∀ t ∈ ts, conjunct.Evaluates I t (.boolean true)) :
    (facts.assumeConjunct conjunct).HoldIn ts := by
  unfold Facts.assumeConjunct
  split
  · refine hold.merge fun t ht => ?_
    obtain ⟨x, left, right⟩ := equal_of_true (holds t ht)
    exact Eq.trans left (Eq.symm right)
  · refine hold.pin fun t ht => ?_
    obtain ⟨x, left, right⟩ := equal_of_true (holds t ht)
    exact Eq.trans left (congrArg some right)
  · refine hold.pin fun t ht => ?_
    obtain ⟨x, left, right⟩ := equal_of_true (holds t ht)
    exact Eq.trans right (congrArg some left)
  · exact hold

/-- A condition that is true of all tuples may be assumed. -/
theorem HoldIn.assume {condition : Expr} (holds : ∀ t ∈ ts, condition.Evaluates I t (.boolean true)) :
    (facts.assume condition).HoldIn ts := by
  refine foldl_keeps (fun facts : Facts => facts.HoldIn ts) (fun conjunct member facts hold => ?_) hold
  exact hold.assumeConjunct fun t ht => (holds t ht).conjunct member

theorem HoldIn.compute {e : Expr} (value : ∀ t ∈ ts, ∃ x, e.Evaluates I t x ∧ t v = some x) :
    (Facts.assign.compute facts v e).HoldIn ts := by
  unfold Facts.assign.compute
  dsimp only
  split
  · exact hold
  · rename_i deterministic
    have isDeterministic : e.isDeterministic = true := by
      cases h : e.isDeterministic with
      | true => rfl
      | false => simp [h] at deterministic
    have determined : ∀ t ∈ ts, ∀ u ∈ ts, (∀ w ∈ e.usedVars, t w = u w) → t v = u v := by
      intro t ht u hu agree
      obtain ⟨x, evaluates, atT⟩ := value t ht
      obtain ⟨y, evaluates', atU⟩ := value u hu
      have moved : e.Evaluates I u x :=
        evaluates.congr fun w occurs => agree w (mem_distinct.mpr occurs)
      rw [atT, atU, moved.unique isDeterministic evaluates']
    refine ⟨hold.equivalence, fun d member => ?_⟩
    rcases List.mem_append.mp member with mapped | new
    · obtain ⟨d, old, rfl⟩ := List.mem_map.mp mapped
      split
      · rename_i covers
        intro t ht u hu agree w inside
        have tails := hold.dependencies d old t ht u hu agree
        rcases VarSet.mem_insertAll.mp inside with before | added
        · exact tails w before
        · rw [List.mem_singleton.mp added]
          exact determined t ht u hu fun w' read => tails w' (VarSet.containsAll_iff.mp covers w' read)
      · exact hold.dependencies d old
    · rw [List.mem_singleton.mp new]
      intro t ht u hu agree w inside
      rw [List.mem_singleton.mp (VarSet.mem_ofList.mp inside)]
      exact determined t ht u hu fun w' read => agree w' (VarSet.mem_ofList.mpr read)

/-- A variable that has the value of an expression in all tuples may be assigned. -/
theorem HoldIn.assign {e : Expr} (value : ∀ t ∈ ts, ∃ x, e.Evaluates I t x ∧ t v = some x) :
    (facts.assign v e).HoldIn ts := by
  cases e with
  | const c =>
    have known : ∀ t ∈ ts, t v = some c := by
      intro t ht
      obtain ⟨x, evaluates, atV⟩ := value t ht
      exact atV.trans (congrArg some evaluates)
    exact (hold.addConstant known).addDependency (.constant known)
  | var w =>
    refine HoldIn.compute (hold.merge fun t ht => ?_) value
    obtain ⟨x, evaluates, atV⟩ := value t ht
    exact Eq.trans evaluates atV.symm
  | call f args hints => exact hold.compute value

end

/-! ## Closures -/

theorem foldl_union_members {q : Equivalence} {vs : List Var} {known : VarSet} {t u : Tuple}
    (ht : q.HoldsIn t) (hu : q.HoldsIn u) (start : ∀ v ∈ known, t v = u v)
    (agree : ∀ v ∈ vs, t v = u v) :
    ∀ v ∈ vs.foldl (fun known v => known.union (q.membersOf v)) known, t v = u v := by
  induction vs generalizing known with
  | nil => exact start
  | cons w vs ih =>
    refine ih (fun v member => ?_) fun v inside => agree v (List.mem_cons_of_mem _ inside)
    rcases VarSet.mem_union.mp member with old | new
    · exact start v old
    · rw [ht.membersOf new, hu.membersOf new, agree w List.mem_cons_self]

section

variable {t u : Tuple} (hold : facts.HoldIn ts) (ht : t ∈ ts) (hu : u ∈ ts)

include hold ht hu

theorem HoldIn.follow {d : Dependency} {known : VarSet} (member : d ∈ facts.dependencies)
    (agree : ∀ v ∈ known, t v = u v) : ∀ v ∈ Facts.follow facts.equivalence known d, t v = u v := by
  unfold Facts.follow
  split
  · rename_i usable
    have head := VarSet.isSubset_iff.mp (Bool.and_eq_true_iff.mp usable).1
    exact foldl_union_members (hold.equivalence t ht) (hold.equivalence u hu) agree
      (hold.dependencies d member t ht u hu fun v inside => agree v (head v inside))
  · exact agree

theorem HoldIn.saturate {known : VarSet} (rounds : Nat) (agree : ∀ v ∈ known, t v = u v) :
    ∀ v ∈ facts.saturate rounds known, t v = u v := by
  induction rounds generalizing known with
  | zero => exact agree
  | succ rounds ih =>
    have next : ∀ v ∈ facts.dependencies.foldl (Facts.follow facts.equivalence) known,
        t v = u v :=
      foldl_keeps (fun known => ∀ v ∈ known, t v = u v)
        (fun d member _ agree => hold.follow ht hu member agree) agree
    unfold Facts.saturate
    dsimp only
    split
    · exact agree
    · exact ih next

/-- Tuples that agree on some variables agree on their closure. -/
theorem HoldIn.closure {vs : List Var} (agree : ∀ v ∈ vs, t v = u v) :
    ∀ v ∈ facts.closure vs, t v = u v := by
  refine hold.saturate ht hu _ ?_
  have given := foldl_union_members (hold.equivalence t ht) (hold.equivalence u hu)
    (fun v impossible => absurd impossible (VarSet.not_mem_empty v)) agree
  refine foldl_keeps (fun known => ∀ v ∈ known, t v = u v) (fun c member known agree => ?_) given
  intro v inside
  obtain ⟨isClass, pinned⟩ := List.mem_filter.mp member
  obtain ⟨value, known⟩ := Option.isSome_iff_exists.mp pinned
  rcases VarSet.mem_union.mp inside with old | new
  · exact agree v old
  · rw [(hold.equivalence t ht c isClass).constant value known v new,
      (hold.equivalence u hu c isClass).constant value known v new]

end

end Facts

end QueryOptimizer
