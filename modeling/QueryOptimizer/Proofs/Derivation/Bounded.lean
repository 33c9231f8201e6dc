import Mathlib
import QueryOptimizer.Proofs.Derivation.Sized
import QueryOptimizer.Proofs.Plan.Regular

/-! # Estimates in bounds

The sizes of a plan are estimated with numbers below a bound. Minima and the sizes of sources stay below
it, and the bytes of a relation are left unknown if they are not. The one number that an estimate does
not leave unknown is the total of a union: it fails exactly if such a total is out of bounds.
-/

namespace QueryOptimizer

theorem bind_error_iff {ε α β : Type} {x : Except ε α} {f : α → Except ε β} {e : ε} :
    (x >>= f) = .error e ↔ x = .error e ∨ ∃ a, x = .ok a ∧ f a = .error e := by
  cases x with
  | error e' => simp [bind, Except.bind]
  | ok a => simp [bind, Except.bind]

/-- A fold fails as one of its steps does. -/
theorem exists_step_of_foldlM_error {ε α β : Type} (P : β → Prop) {f : β → α → Except ε β}
    {l : List α} {b : β} {e : ε} (step : ∀ a ∈ l, ∀ c c', P c → f c a = .ok c' → P c') (start : P b)
    (failed : l.foldlM f b = .error e) : ∃ a ∈ l, ∃ c, P c ∧ f c a = .error e := by
  induction l generalizing b with
  | nil => cases failed
  | cons a l ih =>
    rw [List.foldlM_cons] at failed
    rcases bind_error_iff.mp failed with here | ⟨c, first, rest⟩
    · exact ⟨a, List.mem_cons_self, b, start, here⟩
    · obtain ⟨a', member, later⟩ := ih (fun a' member => step a' (List.mem_cons_of_mem _ member))
        (step a List.mem_cons_self b c start first) rest
      exact ⟨a', List.mem_cons_of_mem _ member, later⟩

namespace Size

variable {size : Size} {sizes : List Size} {total n : Nat} {memory : MemoryConfig}

/-- Whether the numbers that are known are in bounds. -/
structure Fits (size : Size) : Prop where
  cardinality : ∀ n ∈ size.cardinality, n < bound
  tupleBytes : ∀ n ∈ size.tupleBytes, n < bound

/-- The number of tuples of the first sizes, up to one that is unknown. -/
def counted : List Size → Nat
  | [] => 0
  | size :: rest =>
    match size.cardinality with
    | none => 0
    | some n => n + counted rest

theorem Fits.unknown : unknown.Fits :=
  ⟨fun _ impossible => (Option.not_mem_none _ impossible).elim,
    fun _ impossible => (Option.not_mem_none _ impossible).elim⟩

theorem Fits.withCardinality (fits : size.Fits) (low : n < bound) : (size.withCardinality n).Fits :=
  ⟨fun _ known => Option.mem_some.mp known ▸ low, fits.tupleBytes⟩

theorem Fits.atMost (fits : size.Fits) (low : n < bound) : (size.atMost n).Fits := by
  refine fits.withCardinality ?_
  cases size.cardinality with
  | none => exact low
  | some m => exact (Nat.min_le_right m n).trans_lt low

/-- Adding up fails exactly if what is counted is out of bounds. Otherwise the total is what is counted,
    if all numbers are known. -/
theorem totalFrom_cases (sizes : List Size) (start : total < bound) :
    bound ≤ total + counted sizes ∧ totalFrom total sizes = .error .overflow ∨
    total + counted sizes < bound ∧ totalFrom total sizes =
      .ok (if ∀ size ∈ sizes, size.cardinality.isSome then some (total + counted sizes) else none) := by
  induction sizes generalizing total with
  | nil => exact .inr ⟨start, by simp [totalFrom, counted]⟩
  | cons size rest ih =>
    unfold totalFrom counted
    cases known : size.cardinality with
    | none => exact .inr ⟨start, by simp [known]⟩
    | some n =>
      dsimp only
      rw [← Nat.add_assoc]
      by_cases next : total + n < bound
      · rw [if_pos next]
        simpa [known] using ih next
      · rw [if_neg next]
        exact .inl ⟨by omega, rfl⟩

theorem union_cases (sizes : List Size) :
    bound ≤ counted sizes ∧ union sizes = .error .overflow ∨
    counted sizes < bound ∧ union sizes = .ok
      ⟨if ∀ size ∈ sizes, size.cardinality.isSome then some (counted sizes) else none,
        (sizes.filterMap (·.tupleBytes)).max?⟩ := by
  unfold union
  rw [show counted sizes = 0 + counted sizes from (Nat.zero_add _).symm]
  have start : 0 < bound := by decide
  rcases totalFrom_cases sizes start with ⟨out, failed⟩ | ⟨inside, added⟩
  · exact .inl ⟨out, by rw [failed]; rfl⟩
  · exact .inr ⟨inside, by rw [added]; rfl⟩

theorem fits_union {size : Size} (fits : ∀ size ∈ sizes, size.Fits) (done : union sizes = .ok size) :
    size.Fits := by
  rcases union_cases sizes with ⟨_, failed⟩ | ⟨inside, added⟩
  · cases failed.symm.trans done
  cases added.symm.trans done
  refine ⟨fun n known => ?_, fun n largest => ?_⟩
  · dsimp only at known
    split at known
    · exact Option.mem_some.mp known ▸ inside
    · cases known
  · obtain ⟨size, member, bytes⟩ := List.mem_filterMap.mp (List.max?_mem largest)
    exact (fits size member).tupleBytes n bytes

/-- Frames are unknown exactly if a number is, or if the bytes of the relation are out of bounds. -/
theorem frames?_eq_none_iff : size.frames? memory = none ↔
    ∀ rows bytes, size.cardinality = some rows → size.tupleBytes = some bytes → bound ≤ rows * bytes := by
  unfold frames?
  cases size.cardinality with
  | none => simp
  | some rows =>
    cases size.tupleBytes with
    | none => simp
    | some bytes => simp

/-- A relation has no more frames than bytes, also if frames have no size. -/
theorem framesFor_le (memory : MemoryConfig) (bytes : Nat) : memory.framesFor bytes ≤ bytes := by
  unfold MemoryConfig.framesFor
  split
  · exact le_rfl
  · rename_i some
    have positive : 0 < memory.frameSize := Nat.pos_of_ne_zero some
    refine (Nat.div_le_iff_le_mul_add_pred positive).mpr ?_
    exact Nat.add_le_add_right (Nat.le_mul_of_pos_left bytes positive) _

theorem frames?_lt (known : size.frames? memory = some n) : n < bound := by
  obtain ⟨rows, _, known⟩ := Option.bind_eq_some_iff.mp known
  obtain ⟨bytes, _, known⟩ := Option.bind_eq_some_iff.mp known
  dsimp only at known
  split at known
  · rename_i inside
    cases known
    exact (framesFor_le memory _).trans_lt inside
  · cases known

end Size

/-- Whether the statistics of all sources are in bounds. -/
def Catalog.Fits (catalog : Catalog) : Prop :=
  ∀ name statistics, catalog.statistics? name = some statistics →
    statistics.rows < Size.bound ∧ statistics.tupleBytes < Size.bound

/-- Whether the number of tuples that an operator keeps is in bounds. -/
def Operator.Bounded : Operator → Prop
  | limit count _ => count < Size.bound
  | order _ top => ∀ k ∈ top, k < Size.bound
  | _ => True

namespace Session

variable {s s' : Session} {id : NodeId} {sizes : List Size} {size : Size}

/-- An estimate from inputs only fails at a union whose total is out of bounds. -/
theorem sizeFromInputs_cases (s : Session) (id : NodeId) (sizes : List Size) :
    (∃ columns, s.plan.operator id = .unionAll columns ∧ Size.bound ≤ Size.counted sizes) ∧
        s.sizeFromInputs id sizes = .error .overflow ∨
      (∀ columns, s.plan.operator id = .unionAll columns → Size.counted sizes < Size.bound) ∧
        ∃ size, s.sizeFromInputs id sizes = .ok size := by
  unfold sizeFromInputs
  cases s.plan.operator id with
  | unionAll columns =>
    rcases Size.union_cases sizes with ⟨out, failed⟩ | ⟨inside, added⟩
    · exact .inl ⟨⟨columns, rfl, out⟩, failed⟩
    · exact .inr ⟨fun _ _ => inside, _, added⟩
  | order columns top => cases top <;> exact .inr ⟨by simp, _, rfl⟩
  | _ => exact .inr ⟨by simp, _, rfl⟩

theorem fits_sizeFromInputs (catalog : s.context.catalog.Fits) (operator : (s.plan.operator id).Bounded)
    (fits : ∀ size ∈ sizes, size.Fits) (done : s.sizeFromInputs id sizes = .ok size) : size.Fits := by
  have first : (sizes.headD .unknown).Fits := by
    cases sizes with
    | nil => exact .unknown
    | cons size sizes => exact fits size List.mem_cons_self
  unfold sizeFromInputs at done
  generalize s.plan.operator id = op at operator done
  cases op with
  | scan source vars =>
    dsimp only at done
    split at done <;> cases done
    · rename_i statistics known
      obtain ⟨rows, bytes⟩ := catalog source statistics known
      exact ⟨fun _ known => Option.mem_some.mp known ▸ rows, fun _ known => Option.mem_some.mp known ▸ bytes⟩
    · exact .unknown
  | order columns top =>
    cases top with
    | none => cases done; exact first
    | some k => cases done; exact first.atMost (operator k rfl)
  | limit count offset => cases done; exact first.atMost operator
  | aggregate vars exprs => cases done; exact first.withCardinality (by decide)
  | unionAll columns => exact Size.fits_union fits done
  | emptySource => cases done; exact ⟨by decide, by decide⟩
  | nestedSource | join | unnest | script => cases done; exact .unknown
  | _ => cases done; exact first

end Session

namespace Plan

variable {plan : Plan} {catalog : Catalog} {n m : NodeId} {size : Size} {sizes : List Size}

/-- Whether a node is the given one or feeds it. -/
def DrawsOn (plan : Plan) : NodeId → NodeId → Prop :=
  Relation.ReflTransGen fun parent input => input ∈ plan.inputs parent

/-- Whether the total of a union is out of bounds. -/
def TotalOverflows (plan : Plan) (catalog : Catalog) (n : NodeId) : Prop :=
  ∃ columns sizes, plan.operator n = .unionAll columns ∧
    List.Forall₂ (plan.HasSize catalog) (plan.inputs n) sizes ∧ Size.bound ≤ Size.counted sizes

theorem HasSize.eq_map {notes : NodeId → Size} {ids : List NodeId}
    (found : ∀ c ∈ ids, plan.HasSize catalog c (notes c))
    (sized : List.Forall₂ (plan.HasSize catalog) ids sizes) : sizes = ids.map notes := by
  induction sized with
  | nil => rfl
  | @cons c size ids sizes first _ ih =>
    rw [List.map_cons, first.unique (found c List.mem_cons_self),
      ih fun c member => found c (List.mem_cons_of_mem _ member)]

/-- Where a size is found, all totals that it depends on are in bounds. -/
theorem HasSize.total_inside (sized : plan.HasSize catalog n size) (draws : plan.DrawsOn n m) :
    ¬ plan.TotalOverflows catalog m := by
  induction sized with
  | @node n notes size found follow ih =>
    rcases Relation.ReflTransGen.cases_head draws with rfl | ⟨c, member, rest⟩
    · rintro ⟨columns, sizes, operator, sized, out⟩
      obtain rfl := eq_map found sized
      rcases Session.sizeFromInputs_cases { plan := plan, context := { catalog := catalog } } n
        ((plan.inputs n).map notes) with ⟨_, failed⟩ | ⟨inside, _⟩
      · cases failed.symm.trans follow
      · exact absurd (inside columns operator) (Nat.not_lt.mpr out)
    · exact ih c member rest

/-- A node has a size, unless a total is out of bounds that it depends on. -/
theorem exists_hasSize_or_overflows {rank : NodeId → Nat} (catalog : Catalog)
    (falls : plan.RankedBy rank) (reached : plan.Reaches n) :
    (∃ size, plan.HasSize catalog n size) ∨ ∃ m, plan.DrawsOn n m ∧ plan.TotalOverflows catalog m := by
  induction measure : rank n using Nat.strong_induction_on generalizing n with
  | _ r ih =>
    subst measure
    by_cases sized : ∀ c ∈ plan.inputs n, ∃ size, plan.HasSize catalog c size
    · choose! notes found using sized
      rcases Session.sizeFromInputs_cases { plan := plan, context := { catalog := catalog } } n
        ((plan.inputs n).map notes) with ⟨⟨columns, operator, out⟩, _⟩ | ⟨_, size, follow⟩
      · exact .inr ⟨n, .refl, columns, _, operator,
          List.forall₂_map_right_iff.mpr (List.forall₂_same.mpr found), out⟩
      · exact .inl ⟨size, .node found follow⟩
    · obtain ⟨c, sized⟩ := not_forall.mp sized
      obtain ⟨member, unsized⟩ := not_forall.mp sized
      have lower := falls n reached c (mem_sources_of_input member)
      obtain ⟨m, draws, out⟩ := (ih (rank c) lower (reached.input member) rfl).resolve_left unsized
      exact .inr ⟨m, .head member draws, out⟩

theorem HasSize.fits (sized : plan.HasSize catalog n size) (fits : catalog.Fits)
    (bounded : ∀ m, plan.DrawsOn n m → (plan.operator m).Bounded) : size.Fits := by
  induction sized with
  | @node n notes size found follow ih =>
    refine Session.fits_sizeFromInputs (s := { plan := plan, context := { catalog := catalog } }) fits
      (bounded n .refl) (fun size member => ?_) follow
    obtain ⟨c, isInput, rfl⟩ := List.mem_map.mp member
    exact ih c isInput fun m draws => bounded m (.head isInput draws)

end Plan

namespace Session

variable {s s' : Session} {id : NodeId} {fuel : Nat} {size : Size}

/-- An estimate that goes down far enough only fails because of a number that is out of bounds. -/
theorem sizeWithin_error {rank : NodeId → Nat} {e : Failure} (falls : s.plan.RankedBy rank)
    (reached : s.plan.Reaches id) (enough : rank id < fuel)
    (failed : sizeWithin fuel s id = .error e) : e = .overflow := by
  induction fuel generalizing s id e with
  | zero => omega
  | succ fuel ih =>
    unfold sizeWithin at failed
    split at failed
    · cases failed
    rcases bind_error_iff.mp failed with failed | ⟨⟨s₁, sizes⟩, _, failed⟩
    · obtain ⟨n, member, ⟨t, sizes⟩, same, failed⟩ := exists_step_of_foldlM_error
        (fun acc : Session × List Size => acc.1.plan = s.plan)
        (fun n _ acc acc' same step => by
          obtain ⟨⟨t, size⟩, estimated, step⟩ := bind_ok_iff.mp step
          cases pure_ok_iff.mp step
          obtain ⟨table, rfl⟩ := sizeWithin_frame estimated
          exact same) rfl failed
      rcases bind_error_iff.mp failed with failed | ⟨_, _, impossible⟩
      · have same : t.plan = s.plan := same
        have lower := falls id reached n (Plan.mem_sources_of_input member)
        exact ih (same ▸ falls) (same ▸ reached.input member) (by omega) failed
      · cases impossible
    · rcases bind_error_iff.mp failed with failed | ⟨_, _, impossible⟩
      · rcases sizeFromInputs_cases s₁ id sizes with ⟨_, same⟩ | ⟨_, size, done⟩
        · cases failed.symm.trans same
          rfl
        · cases failed.symm.trans done
      · cases impossible

/-- A session in which nothing is noted about sizes. -/
theorem SizesFound.of_empty (new : s.context.sizes = {}) : s.SizesFound := by
  intro n size _ noted
  rw [new] at noted
  cases noted

/-- The size of a node is estimated exactly if it does not depend on a total that is out of bounds. All
    numbers of the estimate are in bounds then, and so are the frames. Frames are left unknown exactly if
    the number of bytes is unknown or out of bounds. -/
theorem size_overflows_iff_total (wellFormed : s.plan.WellFormed) (found : s.SizesFound)
    (fits : s.context.catalog.Fits)
    (bounded : ∀ n, s.plan.Reaches n → (s.plan.operator n).Bounded) (reached : s.plan.Reaches id) :
    (∃ n, s.plan.DrawsOn id n ∧ s.plan.TotalOverflows s.context.catalog n) ∧
        s.size id = .error .overflow ∨
      (¬∃ n, s.plan.DrawsOn id n ∧ s.plan.TotalOverflows s.context.catalog n) ∧
        ∃ s' size, s.size id = .ok (s', size) ∧ size.Fits ∧ ∀ memory : MemoryConfig,
          (∀ frames ∈ size.frames? memory, frames < Size.bound) ∧
          (size.frames? memory = none ↔ ∀ rows bytes, size.cardinality = some rows →
            size.tupleBytes = some bytes → Size.bound ≤ rows * bytes) := by
  obtain ⟨rank, falls, low⟩ := wellFormed.exists_height
  have enough : rank id < s.depth := Nat.lt_succ_of_le (low id)
  rcases Plan.exists_hasSize_or_overflows s.context.catalog falls reached with
    ⟨size, sized⟩ | ⟨n, draws, out⟩
  · obtain ⟨s', done⟩ := found.exists_sizeWithin falls reached sized enough
    refine .inr ⟨fun ⟨n, draws, out⟩ => sized.total_inside draws out, s', size, done,
      sized.fits fits fun m draws => ?_, fun memory => ⟨fun _ known => Size.frames?_lt known,
        Size.frames?_eq_none_iff⟩⟩
    refine bounded m ?_
    induction draws with
    | refl => exact reached
    | tail _ member ih => exact ih.input member
  · refine .inl ⟨⟨n, draws, out⟩, ?_⟩
    cases done : s.size id with
    | error e => rw [sizeWithin_error falls reached enough done]
    | ok result =>
      obtain ⟨found', _, noted⟩ := found.sizeWithin reached done
      obtain ⟨table, same⟩ := sizeWithin_frame done
      have sized := found' id result.2 (by rw [same]; exact reached) noted
      rw [same] at sized
      exact absurd out (sized.total_inside draws)

/-- The union of two sources. -/
def sourceUnion : Plan where
  nodes := [
    some (.above .emptySource []),
    some (.above (.scan "A" [1]) [0]),
    some (.above (.scan "B" [2]) [0]),
    some (.above (.unionAll [⟨1, 2, 3⟩]) [1, 2])]
  root := 3

theorem sourceUnion_wellFormed : sourceUnion.WellFormed :=
  .of_regular (.of_nodes ⟨by simp [sourceUnion], by simp [sourceUnion]⟩ rfl (by decide)) id (fun _ => [])
    (by decide) rfl

theorem sourceUnion_bounded (n : NodeId) : (sourceUnion.operator n).Bounded := by
  match n with
  | 0 | 1 | 2 | 3 => trivial
  | n + 4 => trivial

/-- The union of two sources with the given numbers of rows. -/
def unionOf (rows rows' : Nat) : Session where
  plan := sourceUnion
  context := { catalog := ⟨[
    { name := "A", columns := [("a", .integer .int64)], statistics := some ⟨rows, 16⟩ },
    { name := "B", columns := [("b", .integer .int64)], statistics := some ⟨rows', 8⟩ }]⟩ }

theorem unionOf_fits {rows rows' : Nat} (first : rows < Size.bound) (second : rows' < Size.bound) :
    (unionOf rows rows').context.catalog.Fits := by
  intro name statistics known
  obtain ⟨source, found, known⟩ := Option.bind_eq_some_iff.mp known
  have listed := List.mem_of_find?_eq_some found
  simp only [unionOf, List.mem_cons, List.not_mem_nil, or_false] at listed
  rcases listed with rfl | rfl <;> cases known
  · exact ⟨first, show 16 < Size.bound by decide⟩
  · exact ⟨second, show 8 < Size.bound by decide⟩

/-- The largest total is estimated, and its frames are unknown. -/
theorem size_overflows_iff_total_largest :
    ∃ s' size, (unionOf (2 ^ 63) (2 ^ 63 - 1)).size 3 = .ok (s', size) ∧ size.Fits ∧
      size.cardinality = some (Size.bound - 1) ∧ ∀ memory, size.frames? memory = none := by
  have run : ((unionOf (2 ^ 63) (2 ^ 63 - 1)).size 3).toOption.map (·.2) =
      some ⟨some (Size.bound - 1), some 16⟩ := by
    decide +kernel
  obtain ⟨⟨s', size⟩, done, rfl⟩ := Option.map_eq_some_iff.mp run
  have done := toOption_eq_some_iff.mp done
  rcases size_overflows_iff_total sourceUnion_wellFormed (.of_empty rfl)
    (unionOf_fits (show 2 ^ 63 < Size.bound by decide) (show 2 ^ 63 - 1 < Size.bound by decide))
    (fun n _ => sourceUnion_bounded n) .refl with ⟨_, failed⟩ | ⟨_, s'', size', done', fits, frames⟩
  · cases failed.symm.trans done
  · cases done'.symm.trans done
    refine ⟨s', _, done, fits, rfl, fun memory => (frames memory).2.mpr fun rows bytes isRows isBytes => ?_⟩
    cases isRows
    cases isBytes
    decide

/-- One tuple more is not left unknown. -/
theorem total_of_union_overflows :
    (unionOf (2 ^ 63) (2 ^ 63)).context.catalog.Fits ∧
      (unionOf (2 ^ 63) (2 ^ 63)).size 3 = .error .overflow :=
  ⟨unionOf_fits (by decide) (by decide), rfl⟩

end Session

end QueryOptimizer
