import Mathlib
import QueryOptimizer.Physical.Delivery
import QueryOptimizer.Proofs.Layout.Arrangement
import QueryOptimizer.Proofs.Layout.Colocation

/-! # Layouts of partitioned tuples

A layout holds of partitioned tuples if those that agree on the partitioning columns are in one
partition, and if each partition is arranged as the local properties say. A partitioning that
satisfies a requirement holds of the same tuples in the required form too, and a layout over other
columns holds of tuples that carry the values in the same order.
-/

namespace QueryOptimizer

/-- Whether tuples that agree on some columns are in one partition. -/
def Colocated (columns : List Var) (parts : List (List Tuple)) : Prop :=
  ∀ ⦃i j : Nat⦄ ⦃ts us : List Tuple⦄ ⦃t u : Tuple⦄, parts[i]? = some ts → parts[j]? = some us →
    t ∈ ts → u ∈ us → t.AgreeOn u columns → i = j

/-- Whether tuples are in partitions of some kind. Without columns to go by, all tuples of an
    unpartitioned stream are in one place, and random and broadcast partitions may hold any. -/
def Partitioning.HoldsOf (parts : List (List Tuple)) : Partitioning → Prop
  | random _ | broadcast _ => True
  | p => Colocated p.columns parts

/-- Whether partitioned tuples have a layout. -/
structure Layout.HoldsOf (order : ValueOrder) (layout : Layout) (parts : List (List Tuple)) : Prop where
  partitioning : ∀ p, layout.partitioning = some p → p.HoldsOf parts
  properties : ∀ ts ∈ parts, LocalProperty.Arranged order layout.properties ts

variable {parts parts' : List (List Tuple)} {facts : Facts} {vs ws : List Var} {ts us : List Tuple}

theorem Colocated.of_agreeOn (colocated : Colocated vs parts)
    (agree : ∀ t ∈ parts.flatten, ∀ u ∈ parts.flatten, t.AgreeOn u ws → t.AgreeOn u vs) :
    Colocated ws parts := by
  intro i j ts us t u atI atJ inT inU same
  refine colocated atI atJ inT inU (agree t ?_ u ?_ same)
  · exact List.mem_flatten_of_mem (List.mem_of_getElem? atI) inT
  · exact List.mem_flatten_of_mem (List.mem_of_getElem? atJ) inU

/-! ## Satisfied requirements -/

theorem Equivalence.HoldsIn.eq_of_isConstant {q : Equivalence} {t u : Tuple} {v : Var}
    (disjoint : q.Disjoint) (holds : q.HoldsIn t) (holds' : q.HoldsIn u)
    (constant : q.isConstant v = true) : t v = u v := by
  obtain ⟨c, member, inside, known⟩ := disjoint.isConstant_iff.mp constant
  obtain ⟨value, known⟩ := Option.isSome_iff_exists.mp known
  rw [(holds c member).constant value known v inside, (holds' c member).constant value known v inside]

namespace Partitioning

variable {wanted given p : Partitioning} {mayExpand : Bool} {v : Var}

theorem mem_column_distinctColumns {cs : List OrderColumn} :
    v ∈ (distinctColumns cs).map (·.column) ↔ v ∈ cs.map (·.column) := by
  have general : ∀ seen : List OrderColumn,
      v ∈ (cs.foldl (fun seen c => if seen.any (·.column = c.column) then seen else seen ++ [c])
        seen).map (·.column) ↔ v ∈ seen.map (·.column) ∨ v ∈ cs.map (·.column) := by
    induction cs with
    | nil => simp
    | cons c cs ih =>
      intro seen
      rw [List.foldl_cons, ih, List.map_cons, List.mem_cons]
      split
      · rename_i listed
        obtain ⟨d, member, same⟩ := List.any_eq_true.mp listed
        have known : c.column ∈ seen.map (·.column) :=
          of_decide_eq_true same ▸ List.mem_map_of_mem member
        grind
      · simp only [List.map_append, List.mem_append, List.map_cons, List.map_nil, List.mem_singleton]
        tauto
  exact (general []).trans (by simp)

/-- The columns of a normal form represent the columns that are not constant. -/
theorem mem_columns_normalize : v ∈ (p.normalize facts).columns ↔
    ∃ w ∈ p.columns, facts.equivalence.isConstant w = false ∧
      facts.equivalence.representativeVar w = v := by
  cases p with
  | hash vs domain => simp [normalize, columns, and_assoc]
  | range cs domain =>
    refine mem_column_distinctColumns.trans ?_
    simp [columns, and_assoc]
  | unpartitioned => simp [normalize, columns]
  | random domain => simp [normalize, columns]
  | broadcast domain => simp [normalize, columns]

/-- Tuples that are partitioned as delivered are partitioned as required, if that is satisfied. -/
theorem HoldsOf.of_satisfiedBy (disjoint : facts.equivalence.Disjoint)
    (hold : ∀ t ∈ parts.flatten, facts.equivalence.HoldsIn t)
    (satisfied : wanted.satisfiedBy given mayExpand facts = true) (holds : given.HoldsOf parts) :
    wanted.HoldsOf parts := by
  obtain ⟨_, fits⟩ := Bool.and_eq_true_iff.mp satisfied
  have finer (fewer : ∀ v ∈ (given.normalize facts).columns, v ∈ (wanted.normalize facts).columns)
      (colocated : Colocated given.columns parts) : Colocated wanted.columns parts := by
    refine colocated.of_agreeOn fun t inT u inU agree v listed => ?_
    cases constant : facts.equivalence.isConstant v with
    | true => exact (hold t inT).eq_of_isConstant disjoint (hold u inU) constant
    | false =>
      obtain ⟨w, listed', _, same⟩ :=
        mem_columns_normalize.mp (fewer _ (mem_columns_normalize.mpr ⟨v, listed, constant, rfl⟩))
      have equivalent := disjoint.areEquivalent_of_representativeVar same
      rw [← (hold t inT).areEquivalent equivalent, ← (hold u inU).areEquivalent equivalent]
      exact agree w listed'
  cases wanted with
  | random domain => trivial
  | broadcast domain => trivial
  | unpartitioned =>
    cases given with
    | unpartitioned => exact holds
    | random | broadcast | hash | range => cases fits
  | hash vs domain =>
    cases given with
    | hash ws domain' => exact finer (coversColumns_iff.mp fits).2.1 holds
    | range cs domain' => exact finer (coversColumns_iff.mp fits).2.1 holds
    | unpartitioned | random | broadcast => cases fits
  | range cs domain =>
    cases given with
    | range ds domain' =>
      exact finer ((coversRange_iff.mp fits).2.1.sublist.map _).subset holds
    | unpartitioned | random | broadcast | hash => cases fits

end Partitioning

/-- A layout that lacks no partitioning is partitioned as required. -/
theorem Layout.HoldsOf.required {order : ValueOrder} {required layout : Layout} {mayExpand : Bool}
    (holds : layout.HoldsOf order parts) (disjoint : facts.equivalence.Disjoint)
    (hold : ∀ t ∈ parts.flatten, facts.equivalence.HoldsIn t)
    (satisfied : missingPartitioning facts mayExpand required layout = none) {p : Partitioning}
    (wanted : required.partitioning = some p) : p.HoldsOf parts := by
  unfold missingPartitioning at satisfied
  rw [wanted] at satisfied
  cases delivered : layout.partitioning with
  | none =>
    rw [delivered] at satisfied
    split at satisfied <;> simp_all [Partitioning.HoldsOf]
  | some given =>
    rw [delivered] at satisfied
    have satisfied : p.satisfiedBy given mayExpand facts = true := by
      split at satisfied <;> simp_all
    exact (holds.partitioning given delivered).of_satisfiedBy disjoint hold satisfied

/-! ## Other columns -/

/-- Whether a tuple has the values of another under other names. -/
def Tuple.Carries (f : Var → Option Var) (t u : Tuple) : Prop := ∀ ⦃v w⦄, f v = some w → u w = t v

/-- Whether some columns are the images of others. -/
structure Images (f : Var → Option Var) (vs ws : List Var) : Prop where
  image : ∀ v ∈ vs, ∃ w ∈ ws, f v = some w
  origin : ∀ w ∈ ws, ∃ v ∈ vs, f v = some w

section

variable {f : Var → Option Var} {vs' ws' : List Var} {t t' u u' : Tuple}

theorem Images.nil : Images f [] [] := ⟨by simp, by simp⟩

theorem Images.append (first : Images f vs ws) (second : Images f vs' ws') :
    Images f (vs ++ vs') (ws ++ ws') := by
  constructor
  · intro v member
    rcases List.mem_append.mp member with member | member
    · obtain ⟨w, listed, image⟩ := first.image v member
      exact ⟨w, List.mem_append_left _ listed, image⟩
    · obtain ⟨w, listed, image⟩ := second.image v member
      exact ⟨w, List.mem_append_right _ listed, image⟩
  · intro w member
    rcases List.mem_append.mp member with member | member
    · obtain ⟨v, listed, image⟩ := first.origin w member
      exact ⟨v, List.mem_append_left _ listed, image⟩
    · obtain ⟨v, listed, image⟩ := second.origin w member
      exact ⟨v, List.mem_append_right _ listed, image⟩

theorem Images.of_mapM (mapped : vs.mapM f = some ws) : Images f vs ws := by
  have each := mapM_some_iff_forall₂.mp mapped
  clear mapped
  induction each with
  | nil => exact .nil
  | @cons v w _ _ here _ ih =>
    have first : Images f [v] [w] := ⟨by simpa using here, by simpa using here⟩
    exact first.append ih

theorem Images.agreeOn_iff (images : Images f vs ws) (carries : t.Carries f u)
    (carries' : t'.Carries f u') : u.AgreeOn u' ws ↔ t.AgreeOn t' vs := by
  constructor
  · intro agree v listed
    obtain ⟨w, listed', image⟩ := images.image v listed
    rw [← carries image, ← carries' image, agree w listed']
  · intro agree w listed
    obtain ⟨v, listed', image⟩ := images.origin w listed
    rw [carries image, carries' image, agree v listed']

/-- Whether each tuple of a result carries a tuple of the input. -/
def Carried (f : Var → Option Var) (ts us : List Tuple) : Prop := ∀ u ∈ us, ∃ t ∈ ts, t.Carries f u

/-- Whether the tuples of a result carry tuples of the input in their order. Tuples of the input may be
    carried several times or not at all. -/
def Streamed (f : Var → Option Var) (ts us : List Tuple) : Prop :=
  ∃ place : Nat → Nat, Monotone place ∧
    ∀ i u, us[i]? = some u → ∃ t, ts[place i]? = some t ∧ t.Carries f u

theorem Streamed.carried (streamed : Streamed f ts us) : Carried f ts us := by
  obtain ⟨place, _, origin⟩ := streamed
  intro u member
  obtain ⟨i, position⟩ := List.mem_iff_getElem?.mp member
  obtain ⟨t, found, carries⟩ := origin i u position
  exact ⟨t, List.mem_of_getElem? found, carries⟩

theorem Colocated.carried (colocated : Colocated vs parts) (images : Images f vs ws)
    (carried : List.Forall₂ (Carried f) parts parts') : Colocated ws parts' := by
  have origin : ∀ {i : Nat} {us : List Tuple} {u : Tuple}, parts'[i]? = some us → u ∈ us →
      ∃ ts t, parts[i]? = some ts ∧ t ∈ ts ∧ Tuple.Carries f t u := by
    intro i us u position member
    obtain ⟨small, rfl⟩ := List.getElem?_eq_some_iff.mp position
    have small' : i < parts.length := carried.length_eq ▸ small
    obtain ⟨t, inside, carries⟩ := carried.get small' small _ member
    exact ⟨_, t, List.getElem?_eq_getElem small', inside, carries⟩
  intro i j us us' u u' atI atJ inU inU' agree
  obtain ⟨ts, t, fromI, inT, carries⟩ := origin atI inU
  obtain ⟨ts', t', fromJ, inT', carries'⟩ := origin atJ inU'
  exact colocated fromI fromJ inT inT' ((images.agreeOn_iff carries carries').mp agree)

/-- Tuples stay partitioned if the columns have images, and nothing is said otherwise. -/
theorem Partitioning.HoldsOf.mapColumns {p : Partitioning} (holds : p.HoldsOf parts)
    (carried : List.Forall₂ (Carried f) parts parts') :
    ((p.mapColumns? f).getD (.random p.domain?)).HoldsOf parts' := by
  cases p with
  | random domain => trivial
  | broadcast domain => trivial
  | unpartitioned => exact Colocated.carried holds .nil carried
  | hash vs domain =>
    rw [mapColumns?]
    cases mapped : vs.mapM f with
    | none => trivial
    | some ws => exact Colocated.carried holds (.of_mapM mapped) carried
  | range cs domain =>
    rw [mapColumns?]
    cases mapped : cs.mapM fun c => (f c.column).map fun column => { c with column := column } with
    | none => trivial
    | some ds =>
      refine Colocated.carried holds (.of_mapM (mapM_some_iff_forall₂.mpr ?_)) carried
      refine List.forall₂_map_left_iff.mpr (List.forall₂_map_right_iff.mpr ?_)
      refine (mapM_some_iff_forall₂.mp mapped).imp fun c d image => ?_
      obtain ⟨column, found, rfl⟩ := Option.map_eq_some_iff.mp image
      exact found

namespace LocalProperty

variable {order : ValueOrder} {property mapped : LocalProperty} {earlier preceding : List Var}

theorem images_of_mapColumns? (image : property.mapColumns? f = some mapped) :
    Images f property.columns mapped.columns := by
  cases property with
  | order c =>
    obtain ⟨w, found, rfl⟩ := Option.map_eq_some_iff.mp image
    exact ⟨by simpa [columns] using found, by simpa [columns] using found⟩
  | grouping G =>
    obtain ⟨H, found, rfl⟩ := Option.map_eq_some_iff.mp image
    obtain ⟨ws, mapped, rfl⟩ := Option.map_eq_some_iff.mp found
    have images := Images.of_mapM mapped
    refine ⟨fun v listed => ?_, fun w listed => ?_⟩
    · obtain ⟨w, listed', image⟩ := images.image v listed
      exact ⟨w, VarSet.mem_ofList.mpr listed', image⟩
    · exact images.origin w (VarSet.mem_ofList.mp listed)

/-- A property holds of tuples that are carried in order, under their other names. -/
theorem HoldsAmong.streamed (holds : property.HoldsAmong order earlier ts)
    (streamed : Streamed f ts us) (before : Images f earlier preceding)
    (image : property.mapColumns? f = some mapped) : mapped.HoldsAmong order preceding us := by
  obtain ⟨place, monotone, origin⟩ := streamed
  have images := images_of_mapColumns? image
  cases property with
  | order c =>
    obtain ⟨w, found, rfl⟩ := Option.map_eq_some_iff.mp image
    simp only [HoldsAmong, List.pairwise_iff_getElem] at holds ⊢
    intro i j small small' less agree
    obtain ⟨t, atI, carries⟩ := origin i _ (List.getElem?_eq_getElem small)
    obtain ⟨t', atJ, carries'⟩ := origin j _ (List.getElem?_eq_getElem small')
    rw [before.agreeOn_iff carries carries'] at agree
    rw [carries found, carries' found]
    rcases (monotone less.le).lt_or_eq with lower | same
    · obtain ⟨inside, rfl⟩ := List.getElem?_eq_some_iff.mp atI
      obtain ⟨inside', rfl⟩ := List.getElem?_eq_some_iff.mp atJ
      exact holds _ _ inside inside' lower agree
    · rw [same] at atI
      cases atI.symm.trans atJ
      exact c.direction.allows_refl order _
  | grouping G =>
    obtain ⟨H, _, rfl⟩ := Option.map_eq_some_iff.mp image
    simp only [HoldsAmong, List.triplewise_iff_getElem] at holds ⊢
    intro i j k first second small agree agree' same
    obtain ⟨t, atI, carries⟩ := origin i _ (List.getElem?_eq_getElem _)
    obtain ⟨t', atJ, carries'⟩ := origin j _ (List.getElem?_eq_getElem _)
    obtain ⟨t'', atK, carries''⟩ := origin k _ (List.getElem?_eq_getElem small)
    rw [before.agreeOn_iff carries carries'] at agree
    rw [before.agreeOn_iff carries carries''] at agree'
    replace same := (images.agreeOn_iff carries carries'').mp same
    refine (images.agreeOn_iff carries carries').mpr ?_
    -- Copies of one tuple agree, so the places matter only where all three are different.
    rcases (monotone first.le).lt_or_eq with lower | equal
    · rcases (monotone second.le).lt_or_eq with lower' | equal
      · obtain ⟨inside, rfl⟩ := List.getElem?_eq_some_iff.mp atI
        obtain ⟨inside', rfl⟩ := List.getElem?_eq_some_iff.mp atJ
        obtain ⟨inside'', rfl⟩ := List.getElem?_eq_some_iff.mp atK
        exact holds _ _ _ lower lower' inside'' agree agree' same
      · rw [equal] at atJ
        cases atJ.symm.trans atK
        exact same
    · rw [equal] at atI
      cases atI.symm.trans atJ
      exact fun v _ => rfl

theorem ArrangedAfter.streamed {properties : List LocalProperty}
    (arranged : ArrangedAfter order earlier properties ts) (streamed : Streamed f ts us)
    (before : Images f earlier preceding) :
    ArrangedAfter order preceding (Layout.mapColumns.leading f properties) us := by
  induction properties generalizing earlier preceding with
  | nil => trivial
  | cons property rest ih =>
    obtain ⟨holds, arranged⟩ := arranged
    unfold Layout.mapColumns.leading
    split
    · rename_i mapped image
      exact ⟨holds.streamed streamed before image,
        ih arranged (before.append (images_of_mapColumns? image))⟩
    · trivial

end LocalProperty

/-- The layout over other columns holds of partitions whose tuples are carried in order. -/
theorem Layout.HoldsOf.mapColumns {order : ValueOrder} {layout : Layout}
    (holds : layout.HoldsOf order parts) (streamed : List.Forall₂ (Streamed f) parts parts') :
    (layout.mapColumns f).HoldsOf order parts' where
  partitioning p known := by
    obtain ⟨given, delivered, rfl⟩ := Option.map_eq_some_iff.mp known
    exact (holds.partitioning given delivered).mapColumns (streamed.imp fun _ _ => Streamed.carried)
  properties us member := by
    obtain ⟨i, position⟩ := List.mem_iff_getElem?.mp member
    obtain ⟨small, rfl⟩ := List.getElem?_eq_some_iff.mp position
    have small' : i < parts.length := streamed.length_eq ▸ small
    exact LocalProperty.ArrangedAfter.streamed (holds.properties _ (List.getElem_mem small'))
      (streamed.get small' small) .nil

/-! ## The same columns -/

theorem Partitioning.mapColumns?_eq_self {p : Partitioning} (fixed : ∀ v ∈ p.columns, f v = some v) :
    p.mapColumns? f = some p := by
  cases p with
  | random | broadcast | unpartitioned => rfl
  | hash vs domain =>
    have same : vs.mapM f = some vs := mapM_some_iff_forall₂.mpr (List.forall₂_same.mpr fixed)
    rw [mapColumns?, same, Option.map_some]
  | range cs domain =>
    have same : (cs.mapM fun c => (f c.column).map fun column => { c with column := column }) =
        some cs := by
      refine mapM_some_iff_forall₂.mpr (List.forall₂_same.mpr fun c listed => ?_)
      rw [fixed c.column (List.mem_map_of_mem listed), Option.map_some]
    rw [mapColumns?, same, Option.map_some]

theorem LocalProperty.mapColumns?_eq_self {property : LocalProperty}
    (fixed : ∀ v ∈ property.columns, f v = some v) : property.mapColumns? f = some property := by
  cases property with
  | order c => rw [mapColumns?, fixed c.column (List.mem_singleton.mpr rfl), Option.map_some]
  | grouping G =>
    have same : G.toList.mapM f = some G.toList :=
      mapM_some_iff_forall₂.mpr (List.forall₂_same.mpr fixed)
    have listed : VarSet.ofList G.toList = G := VarSet.ext fun v => VarSet.mem_ofList
    rw [mapColumns?, VarSet.mapM?, same, Option.map_some, listed, Option.map_some]

theorem Layout.mapColumns_eq_self {layout : Layout}
    (partitioning : ∀ p, layout.partitioning = some p → ∀ v ∈ p.columns, f v = some v)
    (properties : ∀ property ∈ layout.properties, ∀ v ∈ property.columns, f v = some v) :
    layout.mapColumns f = layout := by
  have leading : ∀ properties : List LocalProperty,
      (∀ property ∈ properties, ∀ v ∈ property.columns, f v = some v) →
      mapColumns.leading f properties = properties := by
    intro properties fixed
    induction properties with
    | nil => rfl
    | cons property rest ih =>
      rw [mapColumns.leading, LocalProperty.mapColumns?_eq_self (fixed property List.mem_cons_self)]
      dsimp only
      rw [ih fun other member => fixed other (List.mem_cons_of_mem _ member)]
  unfold mapColumns
  rw [leading _ properties]
  cases known : layout.partitioning with
  | none => rw [Option.map_none, ← known]
  | some p =>
    rw [Option.map_some, Partitioning.mapColumns?_eq_self (partitioning p known), Option.getD_some,
      ← known]

end

end QueryOptimizer
