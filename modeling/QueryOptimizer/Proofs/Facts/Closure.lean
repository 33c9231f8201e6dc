import Mathlib
import QueryOptimizer.Facts.Basic
import QueryOptimizer.Proofs.Facts.Disjoint
import QueryOptimizer.Proofs.Variable

/-! # The closure of a set of variables

The closure is the least set that holds the given variables and all constants and that is closed
under equivalences and dependencies.
-/

namespace QueryOptimizer

namespace Equivalence

variable {q : Equivalence} {v w : Var}

theorem isConstant_of_mem (disjoint : q.Disjoint) (equivalent : w ∈ q.membersOf v) :
    q.isConstant w = q.isConstant v := by
  simp only [isConstant, constantOf?, disjoint.classOf?_of_mem equivalent]

theorem representativeVar_of_mem (disjoint : q.Disjoint) (equivalent : w ∈ q.membersOf v) :
    q.representativeVar w = q.representativeVar v := by
  unfold membersOf at equivalent
  cases found : q.classOf? v with
  | none =>
    rw [found] at equivalent
    rw [VarSet.mem_singleton.mp equivalent]
  | some c =>
    rw [found] at equivalent
    have class' : q.classOf? w = some c := disjoint.classOf?_eq (classOf?_some found).1 equivalent
    have nonempty : c.members.min?.isSome := by
      have inside : v ∈ c.members.toList := (classOf?_some found).2
      cases listed : c.members.toList with
      | nil => rw [listed] at inside; cases inside
      | cons u rest => simp [VarSet.min?, listed]
    obtain ⟨least, min⟩ := Option.isSome_iff_exists.mp nonempty
    simp [representativeVar, class', found, min]

theorem representativeVar_mem (q : Equivalence) (v : Var) : q.representativeVar v ∈ q.membersOf v := by
  unfold representativeVar membersOf
  cases found : q.classOf? v with
  | none => exact VarSet.mem_singleton.mpr rfl
  | some c =>
    have inside : v ∈ c.members.toList := (classOf?_some found).2
    cases listed : c.members.toList with
    | nil => rw [listed] at inside; cases inside
    | cons u rest => simp [VarSet.min?, VarSet.mem_def, listed]

theorem representativeVar_le (equivalent : w ∈ q.membersOf v) : q.representativeVar v ≤ w := by
  unfold membersOf at equivalent
  unfold representativeVar
  cases found : q.classOf? v with
  | none =>
    rw [found] at equivalent
    exact (VarSet.mem_singleton.mp equivalent).ge
  | some c =>
    rw [found] at equivalent
    have inside : w ∈ c.members.toList := equivalent
    have ascending := c.members.ascending
    cases listed : c.members.toList with
    | nil => rw [listed] at inside; cases inside
    | cons u rest =>
      rw [listed] at inside ascending
      rcases List.mem_cons.mp inside with rfl | later
      · simp [VarSet.min?, listed]
      · simpa [VarSet.min?, listed] using ((List.pairwise_cons.mp ascending).1 w later).le

end Equivalence

namespace Facts

variable {facts : Facts} {known : VarSet} {vs ws : List Var} {v w : Var} {K : Var → Prop}
  {d : Dependency}

/-- A set that holds all constants and follows equivalences and dependencies. -/
structure Closed (facts : Facts) (K : Var → Prop) : Prop where
  constants : ∀ v, facts.equivalence.isConstant v = true → K v
  equivalents : ∀ v w, K v → w ∈ facts.equivalence.membersOf v → K w
  dependencies : ∀ d ∈ facts.dependencies, (∀ v ∈ d.head, K v) → ∀ v ∈ d.tail, K v

theorem mem_foldl_union {α : Type} {sets : α → VarSet} {as : List α} {start : VarSet} :
    v ∈ as.foldl (fun known a => known.union (sets a)) start ↔ v ∈ start ∨ ∃ a ∈ as, v ∈ sets a := by
  induction as generalizing start with
  | nil => simp
  | cons a as ih =>
    rw [List.foldl_cons, ih, VarSet.mem_union]
    constructor
    · rintro ((old | new) | ⟨b, inside, found⟩)
      · exact .inl old
      · exact .inr ⟨a, List.mem_cons_self, new⟩
      · exact .inr ⟨b, List.mem_cons_of_mem _ inside, found⟩
    · rintro (old | ⟨b, inside, found⟩)
      · exact .inl (.inl old)
      · rcases List.mem_cons.mp inside with rfl | inside
        · exact .inl (.inr found)
        · exact .inr ⟨b, inside, found⟩

theorem mem_closureBase (facts : Facts) (vs : List Var) (v : Var) :
    v ∈ facts.closureBase vs ↔ (∃ u ∈ vs, v ∈ facts.equivalence.membersOf u) ∨
      ∃ c ∈ facts.equivalence.classes, c.constant.isSome ∧ v ∈ c.members := by
  unfold closureBase
  rw [mem_foldl_union, mem_foldl_union]
  constructor
  · rintro ((impossible | given) | ⟨c, inside, found⟩)
    · exact absurd impossible (VarSet.not_mem_empty v)
    · exact .inl given
    · obtain ⟨member, pinned⟩ := List.mem_filter.mp inside
      exact .inr ⟨c, member, pinned, found⟩
  · rintro (given | ⟨c, member, pinned, found⟩)
    · exact .inl (.inr given)
    · exact .inr ⟨c, List.mem_filter.mpr ⟨member, pinned⟩, found⟩

theorem subset_follow (inside : v ∈ known) : v ∈ follow facts.equivalence known d := by
  unfold follow
  split
  · exact mem_foldl_union.mpr (.inl inside)
  · exact inside

theorem subset_foldl_follow {ds : List Dependency} (inside : v ∈ known) :
    v ∈ ds.foldl (follow facts.equivalence) known :=
  foldl_keeps (fun known : VarSet => v ∈ known) (fun _ _ _ h => subset_follow h) inside

theorem subset_saturate {rounds : Nat} (inside : v ∈ known) : v ∈ facts.saturate rounds known := by
  induction rounds generalizing known with
  | zero => exact inside
  | succ rounds ih =>
    unfold saturate
    dsimp only
    split
    · exact inside
    · exact ih (subset_foldl_follow inside)

/-- A dependency that was used has its tail in the result. -/
theorem follow_cases (facts : Facts) (known : VarSet) (d : Dependency) :
    follow facts.equivalence known d = known ∨
      (∀ v ∈ d.head, v ∈ known) ∧ d.tail.isSubset known = false ∧
        ∀ v, v ∈ follow facts.equivalence known d ↔
          v ∈ known ∨ ∃ u ∈ d.tail, v ∈ facts.equivalence.membersOf u := by
  unfold follow
  split
  · rename_i used
    simp only [Bool.and_eq_true, Bool.not_eq_true'] at used
    exact .inr ⟨VarSet.isSubset_iff.mp used.1, used.2, fun v => mem_foldl_union⟩
  · exact .inl rfl

theorem tail_subset_follow (changed : follow facts.equivalence known d ≠ known) (inside : v ∈ d.tail) :
    v ∈ follow facts.equivalence known d := by
  rcases follow_cases facts known d with same | ⟨_, _, members⟩
  · exact absurd same changed
  · exact (members v).mpr (.inr ⟨v, inside, facts.equivalence.mem_membersOf_self v⟩)

/-- A round that adds something uses up a dependency. -/
theorem foldl_follow_cases (facts : Facts) (known : VarSet) (ds : List Dependency) :
    ds.foldl (follow facts.equivalence) known = known ∨
      ∃ d ∈ ds, d.tail.isSubset known = false ∧
        d.tail.isSubset (ds.foldl (follow facts.equivalence) known) = true := by
  induction ds with
  | nil => exact .inl rfl
  | cons d ds ih =>
    rw [List.foldl_cons]
    by_cases changed : follow facts.equivalence known d = known
    · rw [changed]
      rcases ih with same | ⟨e, inside, before, after⟩
      · exact .inl same
      · exact .inr ⟨e, List.mem_cons_of_mem _ inside, before, after⟩
    · refine .inr ⟨d, List.mem_cons_self, ?_, ?_⟩
      · rcases follow_cases facts known d with same | ⟨_, missing, _⟩
        · exact absurd same changed
        · exact missing
      · rw [VarSet.isSubset_iff]
        intro v inside
        exact subset_foldl_follow (tail_subset_follow changed inside)

/-- The number of dependencies that may still add something. -/
def pending (facts : Facts) (known : VarSet) : Nat :=
  (facts.dependencies.filter fun d => !d.tail.isSubset known).length

theorem pending_lt {next : VarSet} (more : ∀ v ∈ known, v ∈ next) (member : d ∈ facts.dependencies)
    (before : d.tail.isSubset known = false) (after : d.tail.isSubset next = true) :
    facts.pending next < facts.pending known := by
  have fewer : (facts.dependencies.filter fun d => !d.tail.isSubset next) =
      (facts.dependencies.filter fun d => !d.tail.isSubset known).filter
        fun d => !d.tail.isSubset next := by
    rw [List.filter_filter]
    refine List.filter_congr fun e _ => ?_
    cases still : e.tail.isSubset next with
    | true => rfl
    | false =>
      have missing : e.tail.isSubset known = false := by
        by_contra inside
        rw [Bool.not_eq_false, VarSet.isSubset_iff] at inside
        rw [Bool.eq_false_iff, ne_eq, VarSet.isSubset_iff] at still
        exact still fun v tail => more v (inside v tail)
      simp [missing]
  unfold pending
  rw [fewer, List.length_filter_lt_length_iff_exists]
  exact ⟨d, List.mem_filter.mpr ⟨member, by simp [before]⟩, by simp [after]⟩

theorem saturate_stable {rounds : Nat} (enough : facts.pending known ≤ rounds) :
    facts.dependencies.foldl (follow facts.equivalence) (facts.saturate rounds known) =
      facts.saturate rounds known := by
  induction rounds generalizing known with
  | zero =>
    rcases foldl_follow_cases facts known facts.dependencies with
      same | ⟨d, member, before, after⟩
    · exact same
    · have less := pending_lt (fun v inside => subset_foldl_follow inside) member before after
      omega
  | succ rounds ih =>
    unfold saturate
    dsimp only
    split
    · assumption
    · rename_i changed
      refine ih ?_
      rcases foldl_follow_cases facts known facts.dependencies with
        same | ⟨d, member, before, after⟩
      · exact absurd same changed
      · have less := pending_lt (fun v inside => subset_foldl_follow inside) member before after
        omega

theorem follow_eq_of_foldl {ds : List Dependency}
    (stable : ds.foldl (follow facts.equivalence) known = known) (member : d ∈ ds) :
    follow facts.equivalence known d = known := by
  induction ds with
  | nil => cases member
  | cons e ds ih =>
    rw [List.foldl_cons] at stable
    have first : follow facts.equivalence known e = known := by
      refine VarSet.ext fun v => ⟨fun inside => ?_, subset_follow⟩
      rw [← stable]
      exact subset_foldl_follow inside
    rcases List.mem_cons.mp member with rfl | member
    · exact first
    · rw [first] at stable
      exact ih stable member

/-- What holds of the start and is kept by each dependency holds of the result. -/
theorem saturate_keeps (P : VarSet → Prop) {rounds : Nat}
    (step : ∀ known, ∀ d ∈ facts.dependencies, P known → P (follow facts.equivalence known d))
    (start : P known) : P (facts.saturate rounds known) := by
  induction rounds generalizing known with
  | zero => exact start
  | succ rounds ih =>
    unfold saturate
    dsimp only
    split
    · exact start
    · exact ih (foldl_keeps P (fun d member known h => step known d member h) start)

theorem mem_of_closed (closed : facts.Closed K) (known : ∀ v ∈ vs, K v)
    (disjoint : facts.equivalence.Disjoint) : ∀ v ∈ facts.closureBase vs, K v := by
  intro v inside
  rcases (mem_closureBase facts vs v).mp inside with ⟨u, given, equivalent⟩ | ⟨c, member, pinned, inC⟩
  · exact closed.equivalents u v (known u given) equivalent
  · exact closed.constants v (disjoint.isConstant_iff.mpr ⟨c, member, inC, pinned⟩)

/-- The classes of all members are inside. -/
def EquivalenceClosed (facts : Facts) (known : VarSet) : Prop :=
  ∀ v ∈ known, ∀ w ∈ facts.equivalence.membersOf v, w ∈ known

theorem equivalenceClosed_base (disjoint : facts.equivalence.Disjoint) (vs : List Var) :
    facts.EquivalenceClosed (facts.closureBase vs) := by
  intro v inside w equivalent
  rw [mem_closureBase] at inside ⊢
  rcases inside with ⟨u, given, equivalentU⟩ | ⟨c, member, pinned, inC⟩
  · exact .inl ⟨u, given, disjoint.membersOf_of_mem equivalentU ▸ equivalent⟩
  · refine .inr ⟨c, member, pinned, ?_⟩
    simpa [Equivalence.membersOf, disjoint.classOf?_eq member inC] using equivalent

theorem EquivalenceClosed.follow (disjoint : facts.equivalence.Disjoint)
    (closed : facts.EquivalenceClosed known) :
    facts.EquivalenceClosed (Facts.follow facts.equivalence known d) := by
  rcases follow_cases facts known d with same | ⟨_, _, members⟩
  · rwa [same]
  · intro v inside w equivalent
    rw [members] at inside ⊢
    rcases inside with old | ⟨u, tail, equivalentU⟩
    · exact .inl (closed v old w equivalent)
    · exact .inr ⟨u, tail, disjoint.membersOf_of_mem equivalentU ▸ equivalent⟩

theorem closure_closed (disjoint : facts.equivalence.Disjoint) (vs : List Var) :
    facts.Closed (· ∈ facts.closure vs) where
  constants v pinned := by
    obtain ⟨c, member, inside, pinned⟩ := disjoint.isConstant_iff.mp pinned
    exact subset_saturate ((mem_closureBase facts vs v).mpr (.inr ⟨c, member, pinned, inside⟩))
  equivalents v w inside equivalent := by
    have closed : facts.EquivalenceClosed (facts.closure vs) :=
      saturate_keeps facts.EquivalenceClosed (fun _ _ _ h => h.follow disjoint)
        (equivalenceClosed_base disjoint vs)
    exact closed v inside w equivalent
  dependencies d member head v tail := by
    have stable : follow facts.equivalence (facts.closure vs) d = facts.closure vs :=
      follow_eq_of_foldl (saturate_stable (List.length_filter_le _ _)) member
    by_contra missing
    -- The head is known and the tail is not, so the dependency would still add to the closure.
    have unused : d.tail.isSubset (facts.closure vs) = false := by
      rw [Bool.eq_false_iff, ne_eq, VarSet.isSubset_iff]
      exact fun all => missing (all v tail)
    have used : v ∈ follow facts.equivalence (facts.closure vs) d := by
      unfold follow
      rw [if_pos (by simpa [unused] using VarSet.isSubset_iff.mpr head)]
      exact mem_foldl_union.mpr (.inr ⟨v, tail, facts.equivalence.mem_membersOf_self v⟩)
    exact missing (stable ▸ used)

/-- Every closed set that holds the variables holds their closure. -/
theorem closure_least (disjoint : facts.equivalence.Disjoint) (closed : facts.Closed K)
    (known : ∀ v ∈ vs, K v) : ∀ v ∈ facts.closure vs, K v := by
  refine saturate_keeps (fun known => ∀ v ∈ known, K v) ?_ (mem_of_closed closed known disjoint)
  intro known d member inside v found
  rcases follow_cases facts known d with same | ⟨head, _, members⟩
  · exact inside v (same ▸ found)
  · rcases (members v).mp found with old | ⟨u, tail, equivalent⟩
    · exact inside v old
    · exact closed.equivalents u v
        (closed.dependencies d member (fun w h => inside w (head w h)) u tail) equivalent

theorem mem_closure_self (inside : v ∈ vs) : v ∈ facts.closure vs :=
  subset_saturate ((mem_closureBase facts vs v).mpr
    (.inl ⟨v, inside, facts.equivalence.mem_membersOf_self v⟩))

/-- What determines some variables determines all that they determine. -/
theorem closure_subset (disjoint : facts.equivalence.Disjoint)
    (known : ∀ w ∈ ws, w ∈ facts.closure vs) : ∀ v ∈ facts.closure ws, v ∈ facts.closure vs :=
  closure_least disjoint (closure_closed disjoint vs) known

theorem closure_mono (disjoint : facts.equivalence.Disjoint) (more : ∀ w ∈ ws, w ∈ vs) :
    ∀ v ∈ facts.closure ws, v ∈ facts.closure vs :=
  closure_subset disjoint fun w inside => mem_closure_self (more w inside)

theorem determines_iff {target : List Var} :
    facts.determines vs target = true ↔ ∀ v ∈ target, v ∈ facts.closure vs :=
  VarSet.containsAll_iff

/-! ## The loop -/

/-- Uses all dependencies once. -/
def round (facts : Facts) (known : VarSet) : VarSet :=
  facts.dependencies.foldl (follow facts.equivalence) known

/-- Saturation takes a number of rounds of which each adds something. -/
theorem saturate_eq_iterate (facts : Facts) (rounds : Nat) (known : VarSet) :
    ∃ n ≤ rounds, facts.round^[n] known = facts.saturate rounds known ∧
      ∀ m < n, facts.round^[m + 1] known ≠ facts.round^[m] known := by
  induction rounds generalizing known with
  | zero => exact ⟨0, le_rfl, rfl, fun m impossible => absurd impossible m.not_lt_zero⟩
  | succ rounds ih =>
    unfold saturate
    dsimp only
    split
    · exact ⟨0, Nat.zero_le _, rfl, fun m impossible => absurd impossible m.not_lt_zero⟩
    · rename_i changed
      obtain ⟨n, few, reached, adds⟩ := ih (facts.round known)
      refine ⟨n + 1, Nat.succ_le_succ few, reached, fun m earlier => ?_⟩
      cases m with
      | zero => exact changed
      | succ m => exact adds m (Nat.lt_of_succ_lt_succ earlier)

/-- Closed sets, told from the classes themselves. -/
theorem closed_iff (disjoint : facts.equivalence.Disjoint) : facts.Closed K ↔
    (∀ c ∈ facts.equivalence.classes, c.constant.isSome → ∀ v ∈ c.members, K v) ∧
    (∀ c ∈ facts.equivalence.classes, ∀ v ∈ c.members, K v → ∀ w ∈ c.members, K w) ∧
    ∀ d ∈ facts.dependencies, (∀ v ∈ d.head, K v) → ∀ v ∈ d.tail, K v := by
  constructor
  · intro closed
    refine ⟨fun c member pinned v inside => closed.constants v ?_,
      fun c member v inside known w other => closed.equivalents v w known ?_, closed.dependencies⟩
    · exact disjoint.isConstant_iff.mpr ⟨c, member, inside, pinned⟩
    · exact disjoint.mem_membersOf_iff.mpr (.inr ⟨c, member, inside, other⟩)
  · rintro ⟨constants, equivalents, dependencies⟩
    refine ⟨fun v pinned => ?_, fun v w known equivalent => ?_, dependencies⟩
    · obtain ⟨c, member, inside, pinned⟩ := disjoint.isConstant_iff.mp pinned
      exact constants c member pinned v inside
    · rcases disjoint.mem_membersOf_iff.mp equivalent with rfl | ⟨c, member, inV, inW⟩
      · exact known
      · exact equivalents c member v inV known w inW

theorem closure_subset_of_dependencies {q : Equivalence} {ds more : List Dependency} (disjoint : q.Disjoint)
    (all : ∀ d ∈ ds, d ∈ more) (vs : List Var) : ∀ v ∈ closure ⟨q, ds⟩ vs, v ∈ closure ⟨q, more⟩ vs := by
  have closed : Closed ⟨q, more⟩ (· ∈ closure ⟨q, more⟩ vs) := closure_closed disjoint vs
  exact closure_least disjoint ⟨closed.constants, closed.equivalents,
    fun d member => closed.dependencies d (all d member)⟩ fun v => mem_closure_self

/-- The closure is there after at most as many rounds as there are dependencies, each of which added
    something. It is the least set that holds the variables, the classes with a constant, with a
    variable its class, and with a head the tail. So it grows with the variables and the dependencies,
    adds nothing to itself, and does not depend on how the dependencies are listed. -/
theorem closure_isLeast_closed (disjoint : facts.equivalence.Disjoint) (vs : List Var) :
    (∃ n ≤ facts.dependencies.length, facts.round^[n] (facts.closureBase vs) = facts.closure vs ∧
      facts.round (facts.closure vs) = facts.closure vs ∧
      ∀ m < n, facts.round^[m + 1] (facts.closureBase vs) ≠ facts.round^[m] (facts.closureBase vs)) ∧
    IsLeast {known : Set Var | (∀ v ∈ vs, v ∈ known) ∧
      (∀ c ∈ facts.equivalence.classes, c.constant.isSome → ∀ v ∈ c.members, v ∈ known) ∧
      (∀ c ∈ facts.equivalence.classes, ∀ v ∈ c.members, v ∈ known → ∀ w ∈ c.members, w ∈ known) ∧
      ∀ d ∈ facts.dependencies, (∀ v ∈ d.head, v ∈ known) → ∀ v ∈ d.tail, v ∈ known}
      {v | v ∈ facts.closure vs} ∧
    (∀ v ∈ vs, v ∈ facts.closure vs) ∧
    (∀ ws, (∀ v ∈ vs, v ∈ ws) → ∀ v ∈ facts.closure vs, v ∈ facts.closure ws) ∧
    (∀ more, (∀ d ∈ facts.dependencies, d ∈ more) →
      ∀ v ∈ facts.closure vs, v ∈ closure ⟨facts.equivalence, more⟩ vs) ∧
    facts.closure (facts.closure vs).toList = facts.closure vs ∧
    ∀ others, (∀ d, d ∈ others ↔ d ∈ facts.dependencies) →
      closure ⟨facts.equivalence, others⟩ vs = facts.closure vs := by
  refine ⟨?_, ⟨⟨fun v => mem_closure_self, (closed_iff disjoint).mp (closure_closed disjoint vs)⟩, ?_⟩,
    fun v => mem_closure_self, fun ws => closure_mono disjoint,
    fun more all => closure_subset_of_dependencies disjoint all vs, ?_, fun others same => ?_⟩
  · obtain ⟨n, few, reached, adds⟩ :=
      facts.saturate_eq_iterate facts.dependencies.length (facts.closureBase vs)
    exact ⟨n, few, reached, saturate_stable (List.length_filter_le _ _), adds⟩
  · rintro known ⟨given, closed⟩ v inside
    exact closure_least (K := (· ∈ known)) disjoint ((closed_iff disjoint).mpr closed) given v inside
  · exact VarSet.ext fun v => ⟨closure_subset disjoint (fun w known => known) v, mem_closure_self⟩
  · exact VarSet.ext fun v => ⟨closure_subset_of_dependencies disjoint (fun d => (same d).mp) vs v,
      closure_subset_of_dependencies disjoint (fun d => (same d).mpr) vs v⟩

/-- Two dependencies in the wrong order, linked by a class, and a class with a constant. -/
def stackedFacts : Facts :=
  ⟨(({} : Equivalence).merge 2 3).addConstant 9 (.integer .int64 1),
    [.ofLists [3, 9] [4], .ofLists [1] [2]]⟩

/-- The second round uses what the first one added. -/
theorem closure_isLeast_closed_stacked :
    stackedFacts.closure [1] = .ofList [1, 2, 3, 4, 9] ∧
      stackedFacts.round^[2] (stackedFacts.closureBase [1]) = stackedFacts.closure [1] ∧
      stackedFacts.round^[1] (stackedFacts.closureBase [1]) ≠ stackedFacts.closure [1] ∧
      closure ⟨stackedFacts.equivalence, stackedFacts.dependencies.reverse⟩ [1] =
        stackedFacts.closure [1] := by
  have disjoint : stackedFacts.equivalence.Disjoint := Equivalence.Disjoint.empty.merge.addConstant
  refine ⟨by decide, by decide, by decide, ?_⟩
  obtain ⟨_, _, _, _, _, _, listed⟩ := closure_isLeast_closed disjoint [1]
  exact listed _ fun d => List.mem_reverse

end Facts

end QueryOptimizer
