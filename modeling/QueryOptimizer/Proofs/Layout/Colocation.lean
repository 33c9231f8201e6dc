import Mathlib
import QueryOptimizer.Layout.Requirements
import QueryOptimizer.Proofs.Facts.Closure
import QueryOptimizer.Proofs.Layout.Orders
import QueryOptimizer.Proofs.Outcome
import QueryOptimizer.Proofs.Relational.Facts

/-! # Where joined tuples meet

If both inputs of a join are partitioned by hash, tuples that agree on all paired keys must be in
the same partition. The second input is therefore required to be partitioned by the partners of
the columns of the first, and these have the same values, one by one, unless a key was taken for a
column that is not equivalent. A delivery that satisfies the requirement may have the columns in
another order and leave out constants. It brings the tuples to the same partition if it has
equivalent columns one by one, or if the order and the number of equal values do not matter.
-/

namespace QueryOptimizer

namespace Equivalence

variable {q : Equivalence} {t : Tuple} {v w : Var}

theorem HoldsIn.areEquivalent (holds : q.HoldsIn t) (equivalent : q.areEquivalent v w = true) :
    t v = t w := by
  unfold Equivalence.areEquivalent at equivalent
  rw [Bool.or_eq_true, decide_eq_true_iff] at equivalent
  rcases equivalent with rfl | together
  · rfl
  · split at together
    · rename_i i j atV atW
      obtain ⟨c, atI, inC⟩ := position?_some atV
      obtain ⟨d, atJ, inD⟩ := position?_some atW
      rw [of_decide_eq_true together] at atI
      cases atI.symm.trans atJ
      exact (holds c (List.mem_of_getElem? atI)).equal v inC w inD
    · cases together

/-- Variables with the same representative are equivalent. -/
theorem Disjoint.areEquivalent_of_representativeVar (disjoint : q.Disjoint)
    (same : q.representativeVar v = q.representativeVar w) : q.areEquivalent v w = true := by
  rw [disjoint.areEquivalent_iff, ← disjoint.membersOf_of_mem (representativeVar_mem q v), same,
    disjoint.membersOf_of_mem (representativeVar_mem q w)]
  exact mem_membersOf_self q w

end Equivalence

/-! ## Partitionings that satisfy others -/

namespace Partitioning

section Covering

variable {facts : Facts} {mayExpand : Bool} {p q : Partitioning} {vs ws : List Var}
  {cs ds : List OrderColumn}

theorem satisfiedBy_iff : p.satisfiedBy q mayExpand facts = true ↔
    sameDomain p.domain? q.domain? = true ∧
      fits mayExpand (p.normalize facts) (q.normalize facts) = true := by
  rw [satisfiedBy, Bool.and_eq_true]

theorem sameDomain_self (domain : Option Domain) : sameDomain domain domain = true := by
  cases domain <;> simp [sameDomain]

theorem coversColumns_iff : coversColumns mayExpand vs ws = true ↔
    (mayExpand = true → ws ≠ []) ∧ (∀ v ∈ ws, v ∈ vs) ∧ (mayExpand = false → ∀ v ∈ vs, v ∈ ws) := by
  cases mayExpand with
  | true =>
    simp only [coversColumns, if_true, Bool.and_eq_true, Bool.not_eq_true', Bool.eq_false_iff, ne_eq,
      VarSet.isEmpty_iff, VarSet.isSubset_iff, VarSet.mem_ofList, List.eq_nil_iff_forall_not_mem]
    simp
  | false =>
    have equality : coversColumns false vs ws = decide (VarSet.ofList ws = VarSet.ofList vs) := rfl
    rw [equality, decide_eq_true_iff]
    constructor
    · intro same
      have members : ∀ v, v ∈ ws ↔ v ∈ vs := fun v => by
        rw [← VarSet.mem_ofList, same, VarSet.mem_ofList]
      exact ⟨fun impossible => Bool.noConfusion impossible, fun v => (members v).mp,
        fun _ v => (members v).mpr⟩
    · rintro ⟨_, inside, all⟩
      refine VarSet.ext fun v => ?_
      rw [VarSet.mem_ofList, VarSet.mem_ofList]
      exact ⟨inside v, all rfl v⟩

theorem coversRange_iff : coversRange mayExpand cs ds = true ↔
    (mayExpand = true → ds ≠ []) ∧ ds <+: cs ∧ (mayExpand = false → cs = ds) := by
  cases mayExpand with
  | true => simp [coversRange]
  | false =>
    have equality : coversRange false cs ds = decide (cs = ds) := rfl
    rw [equality, decide_eq_true_iff]
    constructor
    · rintro rfl
      exact ⟨fun impossible => Bool.noConfusion impossible, List.prefix_rfl, fun _ => rfl⟩
    · exact fun covers => covers.2.2 rfl

end Covering

variable {facts : Facts} {required given : List Var} {domain domain' : Option Domain} {u : Tuple}

/-- Without expansion, deliveries by hash have the same columns, up to equivalence and
    constants. -/
theorem satisfiedBy_hash_iff :
    (hash required domain).satisfiedBy (hash given domain') false facts = true ↔
      sameDomain domain domain' = true ∧ ∀ v,
        (∃ w ∈ given, facts.equivalence.isConstant w = false ∧
          facts.equivalence.representativeVar w = v) ↔
        ∃ w ∈ required, facts.equivalence.isConstant w = false ∧
          facts.equivalence.representativeVar w = v := by
  rw [satisfiedBy_iff]
  refine and_congr_right fun _ => ?_
  simp only [normalize, fits, coversColumns, Bool.false_eq_true, if_false, decide_eq_true_iff]
  constructor
  · intro same v
    have members := congrArg (v ∈ ·) same
    simpa [and_assoc] using members
  · intro same
    refine VarSet.ext fun v => ?_
    simpa [and_assoc] using same v

/-- Columns that are represented among others have no other values than these. -/
theorem mem_values_of_represented (disjoint : facts.equivalence.Disjoint)
    (holds : facts.equivalence.HoldsIn u) {vs ws : List Var}
    (represented : ∀ v ∈ vs, ∃ w ∈ ws,
      facts.equivalence.representativeVar w = facts.equivalence.representativeVar v)
    {x : Option Scalar} (member : x ∈ vs.map u) : x ∈ ws.map u := by
  obtain ⟨v, listed, rfl⟩ := List.mem_map.mp member
  obtain ⟨w, listed', same⟩ := represented v listed
  rw [← holds.areEquivalent (disjoint.areEquivalent_of_representativeVar same)]
  exact List.mem_map_of_mem listed'

/-- Columns that satisfy others have the same values, if none is constant. -/
theorem mem_values_of_satisfiedBy (disjoint : facts.equivalence.Disjoint)
    (holds : facts.equivalence.HoldsIn u)
    (varying : ∀ v ∈ required ++ given, facts.equivalence.isConstant v = false)
    (satisfied : (hash required domain).satisfiedBy (hash given domain') false facts = true)
    (x : Option Scalar) : x ∈ required.map u ↔ x ∈ given.map u := by
  have columns := (satisfiedBy_hash_iff.mp satisfied).2
  constructor
  · refine mem_values_of_represented disjoint holds fun v listed => ?_
    have varies := varying v (List.mem_append_left _ listed)
    obtain ⟨w, inside, _, same⟩ := (columns _).mpr ⟨v, listed, varies, rfl⟩
    exact ⟨w, inside, same⟩
  · refine mem_values_of_represented disjoint holds fun v listed => ?_
    have varies := varying v (List.mem_append_right _ listed)
    obtain ⟨w, inside, _, same⟩ := (columns _).mp ⟨v, listed, varies, rfl⟩
    exact ⟨w, inside, same⟩

/-- Columns that are equivalent one by one have the same values, one by one. -/
theorem values_of_representatives (holds : facts.equivalence.HoldsIn u)
    (same : given.map facts.equivalence.representativeVar =
      required.map facts.equivalence.representativeVar) : given.map u = required.map u := by
  have through : ∀ vs : List Var, vs.map u = (vs.map facts.equivalence.representativeVar).map u := by
    intro vs
    rw [List.map_map]
    exact List.map_congr_left fun v _ =>
      (holds.membersOf (Equivalence.representativeVar_mem facts.equivalence v)).symm
  rw [through given, same, ← through required]

/-- Whether a function of values depends neither on their order nor on how often they are listed. -/
def Unordered {α : Type} (h : List (Option Scalar) → α) : Prop :=
  ∀ xs ys, (∀ x, x ∈ xs ↔ x ∈ ys) → h xs = h ys

/-- Whether tuples with some columns are in the same partition as if they had others: the columns
    are equivalent one by one, or the order does not matter and there are no constants. -/
def Routes {α : Type} (facts : Facts) (h : List (Option Scalar) → α) (required given : List Var) :
    Prop :=
  given.map facts.equivalence.representativeVar = required.map facts.equivalence.representativeVar ∨
    Unordered h ∧ ∀ v ∈ required ++ given, facts.equivalence.isConstant v = false

theorem Routes.same_partition {α : Type} {h : List (Option Scalar) → α}
    (routes : Routes facts h required given) (disjoint : facts.equivalence.Disjoint)
    (holds : facts.equivalence.HoldsIn u)
    (satisfied : (hash required domain).satisfiedBy (hash given domain') false facts = true) :
    h (required.map u) = h (given.map u) := by
  rcases routes with same | ⟨unordered, varying⟩
  · rw [values_of_representatives holds same]
  · exact unordered _ _ (mem_values_of_satisfiedBy disjoint holds varying satisfied)

end Partitioning

namespace Coordination

variable {facts : Facts} {left right columns partners : List Var} {column key : Var}
  {required first layout : Layout} {domain : Option Domain}

/-- Whether a key stands for a partitioning column. -/
def StandsFor (facts : Facts) (key column : Var) : Prop :=
  key = column ∨ facts.equivalence.areEquivalent key column = true ∨
    facts.determines [key] [column] = true ∧ facts.determines [column] [key] = true

theorem keyPosition?_some {i : Nat} (found : keyPosition? facts left column = some i) :
    ∃ key, left[i]? = some key ∧ StandsFor facts key column := by
  obtain ⟨small, matched, _⟩ := List.findIdx?_eq_some_iff_getElem.mp found
  exact ⟨_, List.getElem?_eq_getElem small, by simpa [StandsFor, or_assoc] using matched⟩

theorem keyPosition?_none (missing : keyPosition? facts left column = none) (member : key ∈ left) :
    ¬ StandsFor facts key column := by
  have unmatched := List.findIdx?_eq_none_iff.mp missing key member
  rw [← Bool.not_eq_true] at unmatched
  simpa [StandsFor, or_assoc] using unmatched

/-- The partner of a column is paired with a key that stands for the column. -/
theorem partner_spec (found : partner facts left right column = .ok key) :
    ∃ leftKey, (leftKey, key) ∈ left.zip right ∧ StandsFor facts leftKey column := by
  unfold partner at found
  split at found
  · rename_i i position
    obtain ⟨leftKey, atLeft, stands⟩ := keyPosition?_some position
    split at found
    · rename_i atRight
      cases found
      have paired : (left.zip right)[i]? = some (leftKey, key) := by
        simp [List.getElem?_zip_eq_some, atLeft, atRight]
      exact ⟨leftKey, List.mem_of_getElem? paired, stands⟩
    · cases found
  · cases found

theorem exists_partner_iff (lengths : left.length = right.length) :
    (∃ key, partner facts left right column = .ok key) ↔ ∃ key ∈ left, StandsFor facts key column := by
  constructor
  · rintro ⟨key, found⟩
    obtain ⟨leftKey, paired, stands⟩ := partner_spec found
    exact ⟨leftKey, (List.of_mem_zip paired).1, stands⟩
  · rintro ⟨key, member, stands⟩
    unfold partner
    cases position : keyPosition? facts left column with
    | none => exact absurd stands (keyPosition?_none position member)
    | some i =>
      obtain ⟨_, atLeft, _⟩ := keyPosition?_some position
      have small : i < right.length := lengths ▸ (List.getElem?_eq_some_iff.mp atLeft).1
      exact ⟨right[i], by simp [List.getElem?_eq_getElem small]⟩

theorem coordinate_hash_iff (delivered : first.partitioning = some (.hash columns domain)) :
    coordinate (onKeys left right) facts required first = .ok layout ↔
      ∃ partners, columns.mapM (partner facts left right) = .ok partners ∧
        layout = ⟨some (.hash partners domain), required.properties⟩ := by
  unfold coordinate
  rw [delivered]
  simp only [bind_ok_iff, pure_ok_iff]
  exact exists_congr fun partners => and_congr_right fun _ => eq_comm

/-- Coordination succeeds iff a key stands for each column. -/
theorem coordinate_succeeds_iff (lengths : left.length = right.length)
    (delivered : first.partitioning = some (.hash columns domain)) :
    (∃ layout, coordinate (onKeys left right) facts required first = .ok layout) ↔
      ∀ v ∈ columns, ∃ key ∈ left, StandsFor facts key v := by
  simp only [coordinate_hash_iff delivered, ← exists_partner_iff lengths]
  rw [← exists_mapM_ok_iff]
  constructor
  · rintro ⟨_, partners, found, _⟩
    exact ⟨partners, found⟩
  · rintro ⟨partners, found⟩
    exact ⟨_, partners, found, rfl⟩

/-- A key stands for each column that is not constant, if the columns satisfy the keys. -/
theorem exists_standsFor {leftFacts : Facts} (disjoint : leftFacts.equivalence.Disjoint)
    (coarser : ∀ v w, leftFacts.equivalence.areEquivalent v w = true →
      facts.equivalence.areEquivalent v w = true) {domain' : Option Domain}
    (satisfied : (Partitioning.hash left domain').satisfiedBy (.hash columns domain) false
      leftFacts = true) (member : column ∈ columns)
    (varies : leftFacts.equivalence.isConstant column = false) :
    ∃ key ∈ left, StandsFor facts key column := by
  obtain ⟨_, same⟩ := Partitioning.satisfiedBy_hash_iff.mp satisfied
  obtain ⟨key, isKey, _, represented⟩ := (same _).mp ⟨column, member, varies, rfl⟩
  exact ⟨key, isKey, .inr (.inl (coarser _ _
    (disjoint.areEquivalent_of_representativeVar represented)))⟩

/-- The columns and their partners have the same values, if keys stand for equivalent columns. -/
theorem values_of_partners {t u : Tuple} (holds : facts.equivalence.HoldsIn t)
    (exact : ∀ key ∈ left, ∀ v ∈ columns, StandsFor facts key v →
      facts.equivalence.areEquivalent key v = true)
    (agree : ∀ pair ∈ left.zip right, t pair.1 = u pair.2)
    (found : columns.mapM (partner facts left right) = .ok partners) :
    columns.map t = partners.map u := by
  induction columns generalizing partners with
  | nil => rw [mapM_nil_ok_iff.mp found]; rfl
  | cons v columns ih =>
    obtain ⟨key, others, here, later, rfl⟩ := mapM_cons_ok_iff.mp found
    obtain ⟨leftKey, paired, stands⟩ := partner_spec here
    have equivalent := exact leftKey (List.of_mem_zip paired).1 v List.mem_cons_self stands
    have same : t v = u key := (holds.areEquivalent equivalent).symm.trans (agree _ paired)
    rw [List.map_cons, List.map_cons, same,
      ih (fun key isKey w inside => exact key isKey w (List.mem_cons_of_mem _ inside)) later]

/-- For an input whose partitions satisfy the left keys, coordination succeeds iff keys stand for
    its constant columns too. If keys only stand for equivalent columns, tuples that agree on all
    paired keys are in the same partition, provided that the second input, which satisfies the
    coordinated requirement, routes its tuples by equivalent columns or without regard to order. -/
theorem coordinate_colocates {leftFacts rightFacts : Facts} {domain' : Option Domain}
    (lengths : left.length = right.length) (disjoint : leftFacts.equivalence.Disjoint)
    (disjoint' : rightFacts.equivalence.Disjoint)
    (coarser : ∀ v w, leftFacts.equivalence.areEquivalent v w = true →
      facts.equivalence.areEquivalent v w = true)
    (delivered : first.partitioning = some (.hash columns domain))
    (satisfied : (Partitioning.hash left domain').satisfiedBy (.hash columns domain) false
      leftFacts = true) :
    ((∃ layout, coordinate (onKeys left right) facts required first = .ok layout) ↔
      ∀ v ∈ columns, leftFacts.equivalence.isConstant v = true →
        ∃ key ∈ left, StandsFor facts key v) ∧
    ∀ layout, coordinate (onKeys left right) facts required first = .ok layout →
      ∃ partners, layout = ⟨some (.hash partners domain), required.properties⟩ ∧
        ((∀ key ∈ left, ∀ v ∈ columns, StandsFor facts key v →
            facts.equivalence.areEquivalent key v = true) →
          ∀ (given : List Var) (domain'' : Option Domain),
            (Partitioning.hash partners domain).satisfiedBy (.hash given domain'') false
              rightFacts = true →
            ∀ t u : Tuple, facts.equivalence.HoldsIn t → rightFacts.equivalence.HoldsIn u →
              (∀ pair ∈ left.zip right, t pair.1 = u pair.2) →
              ∀ (α : Type) (h : List (Option Scalar) → α),
                Partitioning.Routes rightFacts h partners given →
                h (columns.map t) = h (given.map u)) := by
  constructor
  · rw [coordinate_succeeds_iff lengths delivered]
    refine forall₂_congr fun v member => ⟨fun found _ => found, fun found => ?_⟩
    cases constant : leftFacts.equivalence.isConstant v with
    | true => exact found constant
    | false => exact exists_standsFor disjoint coarser satisfied member constant
  · intro layout coordinated
    obtain ⟨partners, found, rfl⟩ := (coordinate_hash_iff delivered).mp coordinated
    refine ⟨partners, rfl, fun exact given domain'' satisfied' t u holds holds' agree α h routes => ?_⟩
    rw [values_of_partners holds exact agree found]
    exact routes.same_partition disjoint' holds' satisfied'

/-- A tuple of the left side, in which the first and the third variable are equal, and its partner
    on the right. -/
def leftRow : Tuple :=
  Tuple.empty.extend [1, 2, 3] [.boolean true, .boolean false, .boolean true]

def rightRow : Tuple :=
  Tuple.empty.extend [11, 12, 14] [.boolean true, .boolean false, .boolean true]

/-- The tuples meet if equivalent columns are used, also in another order if it does not matter. -/
theorem coordinate_colocates_equivalent :
    (Partitioning.hash [12, 11] none).satisfiedBy (.hash [14, 12] none) false
      ⟨({} : Equivalence).merge 11 14, []⟩ = true ∧
    coordinate (onKeys [1, 2] [11, 12]) ⟨({} : Equivalence).merge 1 3, []⟩ {}
      ⟨some (.hash [2, 3] none), []⟩ = .ok ⟨some (.hash [12, 11] none), []⟩ ∧
    ([2, 3].map leftRow).toFinset = ([14, 12].map rightRow).toFinset := by
  have result := @coordinate_colocates ⟨({} : Equivalence).merge 1 3, []⟩ [1, 2] [11, 12] [2, 3] {}
    ⟨some (.hash [2, 3] none), []⟩ none ⟨({} : Equivalence).merge 1 3, []⟩
    ⟨({} : Equivalence).merge 11 14, []⟩ none rfl Equivalence.Disjoint.empty.merge
    Equivalence.Disjoint.empty.merge (fun _ _ equivalent => equivalent) rfl (by decide)
  obtain ⟨partners, same, meet⟩ := result.2 _ rfl
  cases same
  refine ⟨by decide, rfl, meet ?_ [14, 12] none (by decide) leftRow rightRow
    ((Equivalence.HoldsIn.empty _).merge rfl) ((Equivalence.HoldsIn.empty _).merge rfl) (by decide)
    _ _ (.inr ⟨fun xs ys same => ?_, by decide⟩)⟩
  · unfold StandsFor
    decide
  · ext x
    simpa using same x

/-- Three ways in which tuples with the same keys do not meet. A constant column satisfies the keys
    but has no partner. A key is taken for a column that it only determines, and that determines
    it. The columns of the second input satisfy the requirement in another order. -/
theorem coordinate_not_colocates : [1, 2].map leftRow = [11, 12].map rightRow ∧
    ((Partitioning.hash [2] none).satisfiedBy (.hash [1, 2] none) false
        ⟨({} : Equivalence).addConstant 1 (.boolean true), []⟩ = true ∧
      coordinate (onKeys [2] [12]) ⟨({} : Equivalence).addConstant 1 (.boolean true), []⟩ {}
        ⟨some (.hash [1, 2] none), []⟩ = .error (.uncoordinatedColumn 1 [2])) ∧
    ((Partitioning.hash [1, 2] none).satisfiedBy (.hash [1, 2] none) false
        ⟨{}, [.ofLists [1] [2], .ofLists [2] [1]]⟩ = true ∧
      coordinate (onKeys [1, 2] [11, 12]) ⟨{}, [.ofLists [1] [2], .ofLists [2] [1]]⟩ {}
        ⟨some (.hash [1, 2] none), []⟩ = .ok ⟨some (.hash [11, 11] none), []⟩ ∧
      (Partitioning.hash [11, 11] none).satisfiedBy (.hash [11, 11] none) false .empty = true ∧
      [1, 2].map leftRow ≠ [11, 11].map rightRow) ∧
    (Partitioning.hash [1, 2] none).satisfiedBy (.hash [1, 2] none) false .empty = true ∧
      coordinate (onKeys [1, 2] [11, 12]) .empty {} ⟨some (.hash [1, 2] none), []⟩ =
        .ok ⟨some (.hash [11, 12] none), []⟩ ∧
      (Partitioning.hash [11, 12] none).satisfiedBy (.hash [12, 11] none) false .empty = true ∧
      [1, 2].map leftRow ≠ [12, 11].map rightRow :=
  ⟨rfl, ⟨by decide, rfl⟩, ⟨by decide, rfl, by decide, by decide⟩, by decide, rfl, by decide,
    by decide⟩

end Coordination

end QueryOptimizer
