import Mathlib
import QueryOptimizer.Proofs.Layout.Partitions

/-! # Satisfied partitionings

Satisfaction passes on from partitioning to partitioning. A partitioning satisfies itself, except
that one without varying columns never does where fewer columns are enough. Tuples that are
partitioned as delivered are partitioned as required: those that agree are in one partition, and
partitions that are ranges of the delivered order are ranges of the required order.
-/

namespace QueryOptimizer

namespace Partitioning

variable {facts : Facts} {mayExpand : Bool} {p wanted given delivered : Partitioning}
  {us vs ws : List Var} {bs cs ds : List OrderColumn}

/-! ## A preorder -/

theorem coversColumns_trans (first : coversColumns mayExpand us vs = true)
    (second : coversColumns mayExpand vs ws = true) : coversColumns mayExpand us ws = true := by
  rw [coversColumns_iff] at first second ⊢
  obtain ⟨_, inside, all⟩ := first
  obtain ⟨nonempty, inside', all'⟩ := second
  exact ⟨nonempty, fun v listed => inside v (inside' v listed),
    fun exact v listed => all' exact v (all exact v listed)⟩

theorem coversRange_trans (first : coversRange mayExpand bs cs = true)
    (second : coversRange mayExpand cs ds = true) : coversRange mayExpand bs ds = true := by
  rw [coversRange_iff] at first second ⊢
  obtain ⟨_, leading, same⟩ := first
  obtain ⟨nonempty, leading', same'⟩ := second
  exact ⟨nonempty, leading'.trans leading, fun exact => (same exact).trans (same' exact)⟩

/-- Leading columns are some of the columns. -/
theorem coversColumns_of_coversRange (covers : coversRange mayExpand cs ds = true) :
    coversColumns mayExpand (cs.map (·.column)) (ds.map (·.column)) = true := by
  rw [coversRange_iff] at covers
  obtain ⟨nonempty, leading, same⟩ := covers
  refine coversColumns_iff.mpr ⟨fun expands => ?_, (leading.sublist.map _).subset, fun exact v => ?_⟩
  · simpa using nonempty expands
  · rw [same exact]
    exact id

theorem fits_trans (first : fits mayExpand wanted given = true)
    (second : fits mayExpand given delivered = true) : fits mayExpand wanted delivered = true := by
  cases wanted with
  | random => rfl
  | unpartitioned =>
    cases given with
    | unpartitioned => exact second
    | random | broadcast | hash | range => cases first
  | broadcast =>
    cases given with
    | broadcast => cases delivered <;> exact second
    | unpartitioned | random | hash | range => cases first
  | hash =>
    cases given with
    | hash =>
      cases delivered with
      | hash => exact coversColumns_trans first second
      | range => exact coversColumns_trans first second
      | unpartitioned | random | broadcast => cases second
    | range =>
      cases delivered with
      | range => exact coversColumns_trans first (coversColumns_of_coversRange second)
      | unpartitioned | random | broadcast | hash => cases second
    | unpartitioned | random | broadcast => cases first
  | range =>
    cases given with
    | range =>
      cases delivered with
      | range => exact coversRange_trans first second
      | unpartitioned | random | broadcast | hash => cases second
    | unpartitioned | random | broadcast | hash => cases first

/-- Whether it is known which machines hold the partitions. A single partition has no domain. -/
def Placed (p : Partitioning) : Prop := p = unpartitioned ∨ ∃ domain, p.domain? = some domain

theorem Placed.sameDomain_iff (placed : wanted.Placed) (placed' : given.Placed) :
    sameDomain wanted.domain? given.domain? = true ↔
      wanted = unpartitioned ∨ given = unpartitioned ∨ wanted.domain? = given.domain? := by
  rcases placed with rfl | ⟨domain, known⟩
  · simp [domain?, sameDomain]
  · rcases placed' with rfl | ⟨domain', known'⟩
    · cases wanted.domain? <;> simp [domain?, sameDomain]
    · have partitioned : wanted ≠ unpartitioned := by
        rintro rfl
        cases known
      have partitioned' : given ≠ unpartitioned := by
        rintro rfl
        cases known'
      simp [known, known', sameDomain, partitioned, partitioned']

theorem eq_unpartitioned_of_satisfiedBy
    (satisfied : unpartitioned.satisfiedBy given mayExpand facts = true) : given = unpartitioned := by
  obtain ⟨_, fits⟩ := satisfiedBy_iff.mp satisfied
  cases given with
  | unpartitioned => rfl
  | random | broadcast | hash | range => cases fits

theorem satisfiedBy_trans (placed : wanted.Placed) (placed' : given.Placed)
    (placed'' : delivered.Placed) (first : wanted.satisfiedBy given mayExpand facts = true)
    (second : given.satisfiedBy delivered mayExpand facts = true) :
    wanted.satisfiedBy delivered mayExpand facts = true := by
  obtain ⟨domain, fits⟩ := satisfiedBy_iff.mp first
  obtain ⟨domain', fits'⟩ := satisfiedBy_iff.mp second
  refine satisfiedBy_iff.mpr ⟨?_, fits_trans fits fits'⟩
  rw [placed.sameDomain_iff placed'']
  rcases (placed.sameDomain_iff placed').mp domain with single | rfl | same
  · exact .inl single
  · exact .inr (.inl (eq_unpartitioned_of_satisfiedBy second))
  · rcases (placed'.sameDomain_iff placed'').mp domain' with rfl | single | same'
    · exact .inr (.inl (eq_unpartitioned_of_satisfiedBy second))
    · exact .inr (.inl single)
    · exact .inr (.inr (same.trans same'))

/-- Whether there is a column to go by that does not have a constant value, if columns are needed. -/
def HasVaryingColumn (facts : Facts) : Partitioning → Prop
  | p@(hash ..) | p@(range ..) => ∃ v ∈ p.columns, facts.equivalence.isConstant v = false
  | _ => True

theorem columns_normalize_ne_nil : (p.normalize facts).columns ≠ [] ↔
    ∃ v ∈ p.columns, facts.equivalence.isConstant v = false := by
  rw [ne_eq, List.eq_nil_iff_forall_not_mem]
  simp only [mem_columns_normalize]
  push Not
  constructor
  · rintro ⟨_, v, listed, varies, _⟩
    exact ⟨v, listed, varies⟩
  · rintro ⟨v, listed, varies⟩
    exact ⟨_, v, listed, varies, rfl⟩

theorem satisfiedBy_self_iff : p.satisfiedBy p mayExpand facts = true ↔
    (mayExpand = true → p.HasVaryingColumn facts) := by
  rw [satisfiedBy_iff, and_iff_right (sameDomain_self _)]
  cases p with
  | unpartitioned => simp [normalize, fits, HasVaryingColumn]
  | random => simp [normalize, fits, HasVaryingColumn]
  | broadcast => simp [normalize, fits, HasVaryingColumn]
  | hash vs domain =>
    have nonempty := @columns_normalize_ne_nil facts (hash vs domain)
    rw [normalize] at nonempty ⊢
    rw [fits, coversColumns_iff, HasVaryingColumn, ← nonempty]
    simp [columns]
  | range cs domain =>
    have nonempty := @columns_normalize_ne_nil facts (range cs domain)
    rw [normalize] at nonempty ⊢
    rw [fits, coversRange_iff, HasVaryingColumn, ← nonempty]
    simp [columns]

/-- Among partitionings in known domains, satisfaction is transitive. It is reflexive too, but for
    partitionings without varying columns where fewer columns are enough. -/
theorem satisfiedBy_preorder (facts : Facts) (mayExpand : Bool) :
    (∀ p : Partitioning, p.satisfiedBy p mayExpand facts = true ↔
      (mayExpand = true → p.HasVaryingColumn facts)) ∧
    ∀ a b c : Partitioning, a.Placed → b.Placed → c.Placed →
      a.satisfiedBy b mayExpand facts = true → b.satisfiedBy c mayExpand facts = true →
        a.satisfiedBy c mayExpand facts = true :=
  ⟨fun _ => satisfiedBy_self_iff, fun _ _ _ => satisfiedBy_trans⟩

/-- A hash requirement is satisfied by hash on equivalent columns, and so by ranges of one of them. -/
theorem satisfiedBy_preorder_through_range :
    (hash [4, 2] (some .default)).satisfiedBy (hash [1, 2] (some .default)) true
      ⟨({} : Equivalence).merge 1 4, []⟩ = true ∧
    (hash [1, 2] (some .default)).satisfiedBy (range [⟨2, .desc⟩] (some .default)) true
      ⟨({} : Equivalence).merge 1 4, []⟩ = true ∧
    (hash [4, 2] (some .default)).satisfiedBy (range [⟨2, .desc⟩] (some .default)) true
      ⟨({} : Equivalence).merge 1 4, []⟩ = true := by
  refine ⟨by decide, by decide, ?_⟩
  exact (satisfiedBy_preorder _ true).2 _ (hash [1, 2] (some .default)) _ (.inr ⟨_, rfl⟩)
    (.inr ⟨_, rfl⟩) (.inr ⟨_, rfl⟩) (by decide) (by decide)

/-- Partitionings by no column, or by constants, do not satisfy themselves where fewer columns are
    enough, though they do where the columns have to be the same. -/
theorem not_satisfiedBy_self :
    (hash [] (some .default)).satisfiedBy (hash [] (some .default)) true .empty = false ∧
    (hash [1] (some .default)).satisfiedBy (hash [1] (some .default)) true
      ⟨({} : Equivalence).addConstant 1 (.boolean true), []⟩ = false ∧
    (range [⟨1, .asc⟩] (some .default)).satisfiedBy (range [⟨1, .asc⟩] (some .default)) true
      ⟨({} : Equivalence).addConstant 1 (.boolean true), []⟩ = false ∧
    (hash [1] (some .default)).satisfiedBy (hash [1] (some .default)) false
      ⟨({} : Equivalence).addConstant 1 (.boolean true), []⟩ = true := by
  decide

end Partitioning

/-! ## Partitions that are ranges -/

/-- Whether a tuple is strictly before another in the lexicographic order of some columns. -/
def Tuple.StrictlyBefore (order : ValueOrder) : List OrderColumn → Tuple → Tuple → Prop
  | [], _, _ => False
  | c :: cs, t, u =>
    t c.column ≠ u c.column ∧ c.direction.Allows order (t c.column) (u c.column) ∨
      t c.column = u c.column ∧ StrictlyBefore order cs t u

/-- Whether all tuples of earlier partitions are strictly before those of later ones. -/
def Ranged (order : ValueOrder) (columns : List OrderColumn) (parts : List (List Tuple)) : Prop :=
  parts.Pairwise fun ts us => ∀ t ∈ ts, ∀ u ∈ us, t.StrictlyBefore order columns u

namespace Tuple

variable {order : ValueOrder} {c : OrderColumn} {cs ds : List OrderColumn} {t u : Tuple}

theorem strictlyBefore_cons_of_eq (same : t c.column = u c.column) :
    t.StrictlyBefore order (c :: cs) u ↔ t.StrictlyBefore order cs u := by
  simp [StrictlyBefore, same]

theorem strictlyBefore_append : t.StrictlyBefore order (cs ++ ds) u ↔
    t.StrictlyBefore order cs u ∨ t.AgreeOn u (cs.map (·.column)) ∧ t.StrictlyBefore order ds u := by
  induction cs with
  | nil => simp [StrictlyBefore, AgreeOn]
  | cons c cs ih =>
    simp only [List.cons_append, StrictlyBefore, ih, List.map_cons, AgreeOn, List.forall_mem_cons]
    tauto

theorem StrictlyBefore.not_agreeOn (before : t.StrictlyBefore order cs u) :
    ¬ t.AgreeOn u (cs.map (·.column)) := by
  induction cs with
  | nil => exact before.elim
  | cons c cs ih =>
    rw [List.map_cons, AgreeOn, List.forall_mem_cons]
    rintro ⟨same, agree⟩
    rcases before with ⟨different, _⟩ | ⟨_, before⟩
    · exact different same
    · exact ih before agree

theorem strictlyBefore_filter {keep : OrderColumn → Bool}
    (same : ∀ c ∈ cs, keep c = false → t c.column = u c.column) :
    t.StrictlyBefore order (cs.filter keep) u ↔ t.StrictlyBefore order cs u := by
  induction cs with
  | nil => exact Iff.rfl
  | cons c cs ih =>
    have rest := ih fun d listed => same d (List.mem_cons_of_mem _ listed)
    cases kept : keep c with
    | true => rw [List.filter_cons_of_pos kept, StrictlyBefore, StrictlyBefore, rest]
    | false =>
      rw [List.filter_cons_of_neg (by simp [kept]), rest,
        strictlyBefore_cons_of_eq (same c List.mem_cons_self kept)]

theorem strictlyBefore_map {f : Var → Var} (left : ∀ v, t (f v) = t v) (right : ∀ v, u (f v) = u v) :
    t.StrictlyBefore order (cs.map fun c => { c with column := f c.column }) u ↔
      t.StrictlyBefore order cs u := by
  induction cs with
  | nil => exact Iff.rfl
  | cons c cs ih => simp only [List.map_cons, StrictlyBefore, left, right, ih]

/-- Only the first of several entries of a column can decide, whatever their directions are. -/
theorem strictlyBefore_distinctColumns :
    t.StrictlyBefore order (Partitioning.distinctColumns cs) u ↔ t.StrictlyBefore order cs u := by
  suffices step : ∀ seen, t.StrictlyBefore order (cs.foldl
      (fun seen c => if seen.any (·.column = c.column) then seen else seen ++ [c]) seen) u ↔
      t.StrictlyBefore order (seen ++ cs) u from step []
  induction cs with
  | nil => simp
  | cons c cs ih =>
    intro seen
    rw [List.foldl_cons, ih]
    split
    · rename_i repeated
      obtain ⟨d, inside, same⟩ := List.any_eq_true.mp repeated
      rw [strictlyBefore_append, strictlyBefore_append]
      refine or_congr_right (and_congr_right fun agree => (strictlyBefore_cons_of_eq ?_).symm)
      rw [← of_decide_eq_true same]
      exact agree d.column (List.mem_map_of_mem inside)
    · rw [List.append_assoc, List.singleton_append]

end Tuple

/-- Tuples in different ranges do not agree on all columns. -/
theorem Ranged.colocated {order : ValueOrder} {cs : List OrderColumn} {parts : List (List Tuple)}
    (ranged : Ranged order cs parts) : Colocated (cs.map (·.column)) parts := by
  intro i j ts us t u atI atJ inT inU agree
  obtain ⟨small, rfl⟩ := List.getElem?_eq_some_iff.mp atI
  obtain ⟨small', rfl⟩ := List.getElem?_eq_some_iff.mp atJ
  have apart := List.pairwise_iff_getElem.mp ranged
  rcases Nat.lt_trichotomy i j with less | same | more
  · exact absurd agree (apart i j small small' less t inT u inU).not_agreeOn
  · exact same
  · exact absurd (fun v listed => (agree v listed).symm)
      (apart j i small' small more u inU t inT).not_agreeOn

namespace Partitioning

variable {facts : Facts} {mayExpand : Bool} {required delivered : Partitioning}
  {parts : List (List Tuple)} {order : ValueOrder} {cs ds : List OrderColumn} {t u : Tuple}

/-- The columns of a range in normal form. -/
def rangeColumns (facts : Facts) (cs : List OrderColumn) : List OrderColumn :=
  distinctColumns ((cs.filter fun c => !facts.equivalence.isConstant c.column).map fun c =>
    { c with column := facts.equivalence.representativeVar c.column })

theorem normalize_range (domain : Option Domain) :
    (range cs domain).normalize facts = range (rangeColumns facts cs) domain := rfl

theorem strictlyBefore_rangeColumns (disjoint : facts.equivalence.Disjoint)
    (left : facts.equivalence.HoldsIn t) (right : facts.equivalence.HoldsIn u) :
    t.StrictlyBefore order (rangeColumns facts cs) u ↔ t.StrictlyBefore order cs u := by
  rw [rangeColumns, Tuple.strictlyBefore_distinctColumns,
    Tuple.strictlyBefore_map (fun v => left.membersOf (facts.equivalence.representativeVar_mem v))
      fun v => right.membersOf (facts.equivalence.representativeVar_mem v)]
  refine Tuple.strictlyBefore_filter fun c _ dropped => left.eq_of_isConstant disjoint right ?_
  simpa using dropped

/-- Leading columns that put tuples in order strictly leave nothing to decide. -/
theorem strictlyBefore_of_coversRange (covers : coversRange mayExpand cs ds = true)
    (before : t.StrictlyBefore order ds u) : t.StrictlyBefore order cs u := by
  obtain ⟨_, ⟨rest, rfl⟩, _⟩ := coversRange_iff.mp covers
  exact Tuple.strictlyBefore_append.mpr (.inl before)

theorem ranged_of_coversRange (disjoint : facts.equivalence.Disjoint)
    (hold : ∀ t ∈ parts.flatten, facts.equivalence.HoldsIn t)
    (covers : coversRange mayExpand (rangeColumns facts cs) (rangeColumns facts ds) = true)
    (ranged : Ranged order ds parts) : Ranged order cs parts := by
  refine List.Pairwise.imp_of_mem (fun {ts us} inTs inUs before t inT u inU => ?_) ranged
  have left := hold t (List.mem_flatten_of_mem inTs inT)
  have right := hold u (List.mem_flatten_of_mem inUs inU)
  rw [← strictlyBefore_rangeColumns disjoint left right]
  refine strictlyBefore_of_coversRange covers ?_
  rw [strictlyBefore_rangeColumns disjoint left right]
  exact before t inT u inU

/-- Tuples that agree on the columns of a hash requirement are in one partition, if those that agree
    on the delivered columns are. A range requirement is satisfied by ranges only, and partitions that
    are strictly one after the other in the delivered order are so in the required one. -/
theorem satisfiedBy_sound (disjoint : facts.equivalence.Disjoint)
    (satisfied : required.satisfiedBy delivered mayExpand facts = true)
    (hold : ∀ t ∈ parts.flatten, facts.equivalence.HoldsIn t) (order : ValueOrder) :
    (∀ vs domain, required = hash vs domain → Colocated delivered.columns parts →
      Colocated vs parts) ∧
    ∀ cs domain, required = range cs domain → ∃ ds domain', delivered = range ds domain' ∧
      (Ranged order ds parts → Ranged order cs parts) := by
  obtain ⟨_, fits⟩ := satisfiedBy_iff.mp satisfied
  constructor
  · rintro vs domain rfl colocated
    refine HoldsOf.of_satisfiedBy disjoint hold satisfied ?_
    cases delivered with
    | hash => exact colocated
    | range => exact colocated
    | unpartitioned | random | broadcast => cases fits
  · rintro cs domain rfl
    cases delivered with
    | range ds domain' =>
      rw [normalize_range, normalize_range] at fits
      exact ⟨ds, domain', rfl, ranged_of_coversRange disjoint hold fits⟩
    | unpartitioned | random | broadcast | hash => cases fits

/-- The second variable is constant, and the third and the fifth are equal. -/
def pairedFacts : Facts :=
  ⟨(({} : Equivalence).merge 3 5).addConstant 2 (.integer .int64 7), []⟩

/-- Two partitions, in the order of the third variable. -/
def pairedParts : List (List Tuple) :=
  [[LocalProperty.sampleRow 1 7 4 4, LocalProperty.sampleRow 2 7 5 5],
    [LocalProperty.sampleRow 1 7 9 9]]

/-- A constant that leads an order does not matter, and neither does a column that comes again in the
    other direction. -/
theorem satisfiedBy_sound_paired :
    (range [⟨2, .desc⟩, ⟨5, .asc⟩, ⟨1, .asc⟩] none).satisfiedBy
      (range [⟨3, .asc⟩, ⟨5, .desc⟩] none) true pairedFacts = true ∧
    Ranged LocalProperty.integerOrder [⟨2, .desc⟩, ⟨5, .asc⟩, ⟨1, .asc⟩] pairedParts ∧
    (hash [1, 5] none).satisfiedBy (range [⟨3, .asc⟩, ⟨5, .desc⟩] none) true pairedFacts = true ∧
    Colocated [1, 5] pairedParts := by
  have disjoint : pairedFacts.equivalence.Disjoint := Equivalence.Disjoint.empty.merge.addConstant
  have hold : ∀ t ∈ pairedParts.flatten, pairedFacts.equivalence.HoldsIn t := by
    intro t ht
    refine ((Equivalence.HoldsIn.empty t).merge ?_).addConstant ?_ <;>
      simp only [pairedParts, List.flatten_cons, List.flatten_nil, List.append_nil, List.cons_append,
        List.nil_append] at ht <;> fin_cases ht <;> rfl
  have sorted : Ranged LocalProperty.integerOrder [⟨3, .asc⟩, ⟨5, .desc⟩] pairedParts := by
    simp [Ranged, pairedParts, Tuple.StrictlyBefore, Direction.Allows, LocalProperty.integerOrder,
      LocalProperty.sampleRow, Tuple.extend, List.lookup]
  have ranges : (range [⟨2, .desc⟩, ⟨5, .asc⟩, ⟨1, .asc⟩] none).satisfiedBy
    (range [⟨3, .asc⟩, ⟨5, .desc⟩] none) true pairedFacts = true := by decide
  have hashes : (hash [1, 5] none).satisfiedBy (range [⟨3, .asc⟩, ⟨5, .desc⟩] none) true
    pairedFacts = true := by decide
  obtain ⟨_, _, same, ordered⟩ :=
    (satisfiedBy_sound disjoint ranges hold LocalProperty.integerOrder).2 _ _ rfl
  cases same
  exact ⟨ranges, ordered sorted, hashes,
    (satisfiedBy_sound disjoint hashes hold LocalProperty.integerOrder).1 _ _ rfl sorted.colocated⟩

end Partitioning

end QueryOptimizer
