import Mathlib
import QueryOptimizer.Proofs.Layout.Partitions

/-! # Delivered layouts are true

What physical operators make of the partitions of their first input. If the input has the layout that
is recorded for it, partitioned as the operator requires, then the result has the layout that the
operator delivers.
-/

namespace QueryOptimizer

/-- Whether a layout is about the given columns only. -/
structure Layout.Within (layout : Layout) (columns : VarSet) : Prop where
  partitioning : ∀ p, layout.partitioning = some p → ∀ v ∈ p.columns, v ∈ columns
  properties : ∀ property ∈ layout.properties, ∀ v ∈ property.columns, v ∈ columns

instance (t u : Tuple) (vs : List Var) : Decidable (t.AgreeOn u vs) :=
  inferInstanceAs (Decidable (∀ v ∈ vs, t v = u v))

/-- Whether a tuple may stand before another in an order by several columns. The first column in which
    they differ decides. -/
def Tuple.Before (order : ValueOrder) : List OrderColumn → Tuple → Tuple → Prop
  | [], _, _ => True
  | c :: cs, t, u =>
    if t c.column = u c.column then Before order cs t u
    else c.direction.Allows order (t c.column) (u c.column)

/-- Whether a list is sorted, and tuples that agree on all columns of the order stand as they stood
    before. -/
structure StablySorted (order : ValueOrder) (cs : List OrderColumn) (ts us : List Tuple) : Prop where
  perm : us.Perm ts
  sorted : us.Pairwise (Tuple.Before order cs)
  stable : ∀ t : Tuple, us.filter (fun u => t.AgreeOn u (cs.map (·.column))) =
    ts.filter fun u => t.AgreeOn u (cs.map (·.column))

/-- Whether each tuple is replaced in its place by any number of tuples with the same values of some
    columns. -/
def Expanded (columns : List Var) (ts us : List Tuple) : Prop :=
  ∃ copies : List (List Tuple), us = copies.flatten ∧
    List.Forall₂ (fun t group => ∀ u ∈ group, t.AgreeOn u columns) ts copies

/-- Whether there is one tuple for each run of tuples that agree on the keys, with values of the first
    tuple of the run. -/
def RunsJoined (keys : List Var) (columns : GroupColumns) (ts us : List Tuple) : Prop :=
  List.Forall₂ (fun run u => ∃ t, run.head? = some t ∧ ∀ c ∈ columns, u c.1 = t c.2)
    (ts.splitBy fun t u => t.AgreeOn u keys) us

namespace Physical

/-- What an operator makes of the partitions of its first input, whose tuples have the given columns.
    Joins are on columns of the first input. -/
def Makes (order : ValueOrder) (columns : VarSet) (parts parts' : List (List Tuple)) : Physical → Prop
  | streamSelect | streamLimit => List.Forall₂ (fun ts us => us.Sublist ts) parts parts'
  | assign | unnest => List.Forall₂ (Expanded columns.toList) parts parts'
  | streamProject vs => List.Forall₂ (fun ts us => us = ts.map (·.restrict vs)) parts parts'
  | preclusteredGroupBy keys decor =>
    List.Forall₂ (RunsJoined (keys.map (·.2)) (keys ++ decor)) parts parts'
  | externalGroupBy keys decor =>
    List.Forall₂ (fun ts us => ∀ u ∈ us, ∃ t ∈ ts, ∀ c ∈ keys ++ decor, u c.1 = t c.2) parts parts'
  | preSortedDistinct vs => List.Forall₂ (RunsJoined vs (vs.map fun v => (v, v))) parts parts'
  | stableSort cs | inMemorySort cs => List.Forall₂ (StablySorted order cs) parts parts'
  | inMemoryHashJoin join =>
    (∀ v ∈ join.leftKeys, v ∈ columns) ∧ List.Forall₂ (Expanded columns.toList) parts parts'
  | hybridHashJoin join =>
    (∀ v ∈ join.leftKeys, v ∈ columns) ∧
      List.Forall₂ (fun ts us => ∀ u ∈ us, ∃ t ∈ ts, t.AgreeOn u columns.toList) parts parts'
  | _ => False

end Physical

/-! ## Streams -/

section

variable {f : Var → Option Var} {ts us firsts : List Tuple} {t u : Tuple} {columns : VarSet}

theorem Tuple.carries_some (t : Tuple) : t.Carries some t := fun _ _ same => by cases same; rfl

/-- Keeps the variables of a set. -/
def keep (columns : VarSet) (v : Var) : Option Var := if v ∈ columns then some v else none

theorem Tuple.AgreeOn.carries (agree : t.AgreeOn u columns.toList) : t.Carries (keep columns) u := by
  intro v w kept
  unfold keep at kept
  split at kept
  · rename_i member
    cases kept
    exact (agree v member).symm
  · cases kept

theorem Streamed.of_sublist (sublist : firsts.Sublist ts)
    (carries : List.Forall₂ (Tuple.Carries f) firsts us) : Streamed f ts us := by
  obtain ⟨place, same⟩ := List.sublist_iff_exists_orderEmbedding_getElem?_eq.mp sublist
  refine ⟨place, place.monotone, fun i u position => ?_⟩
  obtain ⟨small, rfl⟩ := List.getElem?_eq_some_iff.mp position
  have small' : i < firsts.length := carries.length_eq ▸ small
  exact ⟨firsts[i], (same i).symm.trans (List.getElem?_eq_getElem small'), carries.get small' small⟩

theorem Streamed.flatten {copies : List (List Tuple)}
    (each : List.Forall₂ (fun t group => ∀ u ∈ group, Tuple.Carries f t u) ts copies) :
    Streamed f ts copies.flatten := by
  induction each with
  | nil => exact ⟨id, monotone_id, by simp⟩
  | @cons t group ts copies here _ ih =>
    obtain ⟨place, monotone, origin⟩ := ih
    refine ⟨fun i => if i < group.length then 0 else place (i - group.length) + 1, ?_, ?_⟩
    · intro i j below
      dsimp only
      have later := monotone (Nat.sub_le_sub_right below group.length)
      split <;> split <;> omega
    · intro i u position
      rw [List.flatten_cons] at position
      by_cases small : i < group.length
      · rw [List.getElem?_append_left small] at position
        exact ⟨t, by simp [small], here u (List.mem_of_getElem? position)⟩
      · rw [List.getElem?_append_right (Nat.le_of_not_lt small)] at position
        obtain ⟨t', found, carries⟩ := origin _ u position
        exact ⟨t', by simpa [small] using found, carries⟩

theorem Expanded.streamed (expanded : Expanded columns.toList ts us) :
    Streamed (keep columns) ts us := by
  obtain ⟨copies, rfl, each⟩ := expanded
  exact .flatten (each.imp fun t group agree u member => (agree u member).carries)

theorem streamed_restrict (ts : List Tuple) (vs : List Var) :
    Streamed (fun v => if v ∈ vs then some v else none) ts (ts.map (·.restrict vs)) := by
  refine .of_sublist (.refl ts) (List.forall₂_map_right_iff.mpr (List.forall₂_same.mpr fun t _ => ?_))
  intro v w kept
  dsimp only at kept
  split at kept
  · rename_i member
    cases kept
    exact Tuple.restrict_of_mem member
  · cases kept

/-- The first tuples of all runs stand in the order of the runs. -/
theorem sublist_flatten_of_heads {runs : List (List Tuple)}
    (heads : List.Forall₂ (fun run t => run.head? = some t) runs firsts) : firsts.Sublist runs.flatten := by
  induction heads with
  | nil => exact .slnil
  | @cons run t runs firsts here _ ih =>
    obtain ⟨rest, rfl⟩ := List.head?_eq_some_iff.mp here
    exact (ih.trans (List.sublist_append_right rest _)).cons_cons t

theorem RunsJoined.streamed {keys : List Var} {entries : GroupColumns}
    (joined : RunsJoined keys entries ts us) (named : ∀ v w, f v = some w → (w, v) ∈ entries) :
    Streamed f ts us := by
  unfold RunsJoined at joined
  have whole := List.flatten_splitBy (fun t u => decide (t.AgreeOn u keys)) ts
  generalize ts.splitBy _ = runs at joined whole
  obtain ⟨firsts, heads, carries⟩ : ∃ firsts,
      List.Forall₂ (fun run t => run.head? = some t) runs firsts ∧
        List.Forall₂ (Tuple.Carries f) firsts us := by
    clear whole
    induction joined with
    | nil => exact ⟨[], .nil, .nil⟩
    | cons here _ ih =>
      obtain ⟨firsts, heads, carries⟩ := ih
      obtain ⟨t, head, values⟩ := here
      exact ⟨t :: firsts, .cons head heads,
        .cons (fun v w image => values (w, v) (named v w image)) carries⟩
  exact .of_sublist (whole ▸ sublist_flatten_of_heads heads) carries

end

/-! ## Sorted partitions -/

namespace Tuple.Before

variable {order : ValueOrder} {t u : Tuple} {us : List Tuple} {cs : List OrderColumn}

theorem allows {c : OrderColumn} {later : List OrderColumn} (before : Before order (cs ++ c :: later) t u)
    (agree : t.AgreeOn u (cs.map (·.column))) :
    c.direction.Allows order (t c.column) (u c.column) := by
  induction cs with
  | nil =>
    rw [List.nil_append, Before] at before
    split at before
    · rename_i same
      rw [same]
      exact c.direction.allows_refl order _
    · exact before
  | cons d cs ih =>
    obtain ⟨here, agree⟩ := List.forall_mem_cons.mp agree
    rw [List.cons_append, Before, if_pos here] at before
    exact ih before agree

/-- Tuples that are sorted by columns have the orders of all columns, one after the other. -/
theorem arrangedAfter (done : List OrderColumn) (sorted : us.Pairwise (Before order (done ++ cs))) :
    LocalProperty.ArrangedAfter order (done.map (·.column)) (Physical.orderProperties cs) us := by
  induction cs generalizing done with
  | nil => trivial
  | cons c cs ih =>
    refine ⟨sorted.imp fun before agree => before.allows agree, ?_⟩
    have rest := ih (done ++ [c]) (by simpa using sorted)
    simpa [LocalProperty.columns, Physical.orderProperties] using rest

end Tuple.Before

/-! ## Deliveries -/

section

variable {order : ValueOrder} {columns : VarSet} {layout : Layout} {parts parts' : List (List Tuple)}

theorem keep_of_mem {v : Var} (member : v ∈ columns) : keep columns v = some v := if_pos member

theorem Layout.HoldsOf.of_sublists (holds : layout.HoldsOf order parts)
    (fewer : List.Forall₂ (fun ts us => us.Sublist ts) parts parts') : layout.HoldsOf order parts' := by
  have mapped := holds.mapColumns (fewer.imp fun ts us sublist =>
    Streamed.of_sublist sublist (List.forall₂_same.mpr fun t _ => t.carries_some))
  rwa [mapColumns_eq_self (fun _ _ _ _ => rfl) fun _ _ _ _ => rfl] at mapped

theorem Layout.HoldsOf.of_expanded (holds : layout.HoldsOf order parts) (within : layout.Within columns)
    (expanded : List.Forall₂ (Expanded columns.toList) parts parts') : layout.HoldsOf order parts' := by
  have mapped := holds.mapColumns (expanded.imp fun ts us => Expanded.streamed)
  rwa [mapColumns_eq_self (fun p known v listed => keep_of_mem (within.partitioning p known v listed))
    fun property member v listed => keep_of_mem (within.properties property member v listed)] at mapped

theorem Partitioning.HoldsOf.kept {p : Partitioning} (holds : p.HoldsOf parts)
    (within : ∀ v ∈ p.columns, v ∈ columns)
    (carried : List.Forall₂ (Carried (keep columns)) parts parts') : p.HoldsOf parts' := by
  have mapped := holds.mapColumns carried
  rwa [mapColumns?_eq_self fun v listed => keep_of_mem (within v listed)] at mapped

end

namespace Physical

variable {order : ValueOrder} {columns : VarSet} {s : Surroundings} {layout : Layout} {facts : Facts}
  {mayExpand : Bool} {arity : Nat} {parts parts' : List (List Tuple)}

/-- Tuples of a hash join are where the tuples of its left side were. If both sides are partitioned by
    the keys, they are partitioned by the left keys. -/
theorem hashJoinPartitioning_holds {join : HashJoin} (input : s.input = .ok layout)
    (within : layout.Within columns) (holds : layout.HoldsOf order parts)
    (keyed : ∀ v ∈ join.leftKeys, v ∈ columns)
    (required : s.mode = .partitioned → join.sides = .pairwise →
      (Partitioning.hash join.leftKeys none).HoldsOf parts)
    (carried : List.Forall₂ (Carried (keep columns)) parts parts') :
    ∃ partitioning, hashJoinPartitioning join s = .ok partitioning ∧
      ∀ p, partitioning = some p → p.HoldsOf parts' := by
  unfold hashJoinPartitioning inputPartitioning
  rw [input]
  cases mode : s.mode <;> cases sides : join.sides
  case partitioned.pairwise =>
    refine ⟨_, rfl, fun p known => ?_⟩
    cases known
    exact (required mode sides).kept keyed carried
  all_goals
    refine ⟨layout.partitioning, rfl, fun p known => ?_⟩
    exact (holds.partitioning p known).kept (within.partitioning p known) carried

theorem groupOutput?_some {entries : GroupColumns} {v w : Var} (found : groupOutput? entries v = some w) :
    (w, v) ∈ entries := by
  obtain ⟨⟨w', v'⟩, isEntry, rfl⟩ := Option.map_eq_some_iff.mp found
  have same : v' = v := by simpa using List.find?_some isEntry
  exact same ▸ List.mem_of_find?_eq_some isEntry

theorem carried_of_agreeOn {ts us : List Tuple} (agree : ∀ u ∈ us, ∃ t ∈ ts, t.AgreeOn u columns.toList) :
    Carried (keep columns) ts us := by
  intro u member
  obtain ⟨t, inside, same⟩ := agree u member
  exact ⟨t, inside, same.carries⟩

/-- Sorted tuples stay in their partitions, all in one place if that is required. -/
theorem sorted_holds {cs : List OrderColumn} (input : s.input = .ok layout)
    (holds : layout.HoldsOf order parts)
    (required : s.mode = .unpartitioned → Partitioning.unpartitioned.HoldsOf parts)
    (sorted : List.Forall₂ (StablySorted order cs) parts parts') :
    ∃ partitioning, globalPartitioning s = .ok partitioning ∧
      Layout.HoldsOf order ⟨partitioning, orderProperties cs⟩ parts' := by
  have carried : List.Forall₂ (Carried some) parts parts' := sorted.imp fun ts us sorted u member =>
    ⟨u, sorted.perm.mem_iff.mp member, u.carries_some⟩
  have arranged : ∀ us ∈ parts', LocalProperty.Arranged order (orderProperties cs) us := by
    intro us member
    obtain ⟨i, position⟩ := List.mem_iff_getElem?.mp member
    obtain ⟨small, rfl⟩ := List.getElem?_eq_some_iff.mp position
    exact Tuple.Before.arrangedAfter [] (sorted.get (sorted.length_eq ▸ small) small).sorted
  unfold globalPartitioning inputPartitioning
  rw [input]
  split
  · rename_i mode
    refine ⟨_, rfl, fun p known => ?_, arranged⟩
    cases known
    exact (required mode).mapColumns carried
  · refine ⟨_, rfl, fun p known => ?_, arranged⟩
    have mapped := (holds.partitioning p known).mapColumns carried
    rwa [Partitioning.mapColumns?_eq_self fun _ _ => rfl] at mapped

/-- An operator whose first input has its layout, partitioned as required, makes of it tuples with the
    delivered layout. -/
theorem delivered_holds {p : Physical} (input : s.input = .ok layout) (within : layout.Within columns)
    (disjoint : facts.equivalence.Disjoint)
    (hold : ∀ t ∈ parts.flatten, facts.equivalence.HoldsIn t) (holds : layout.HoldsOf order parts)
    (satisfied : ∀ required, (p.requirements s.mode arity).layouts[0]? = some (some required) →
      Layout.missingPartitioning facts mayExpand required layout = none)
    (makes : p.Makes order columns parts parts') :
    ∃ layout', p.delivered s = .ok layout' ∧ layout'.HoldsOf order parts' := by
  have required : ∀ required q, (p.requirements s.mode arity).layouts[0]? = some (some required) →
      required.partitioning = some q → q.HoldsOf parts := fun required q asked wanted =>
    holds.required disjoint hold (satisfied required asked) wanted
  have joined {join : HashJoin} (asks : p.requirements s.mode arity = hashJoinRequirements join s.mode arity)
      (mode : s.mode = .partitioned) (sides : join.sides = .pairwise) :
      (Partitioning.hash join.leftKeys none).HoldsOf parts := by
    refine required (byHash join.leftKeys) _ ?_ rfl
    rw [asks]
    simp [hashJoinRequirements, mode, sides]
  have placed {cs : List OrderColumn} (asks : (p.requirements s.mode arity).layouts = [sortRequirement cs s.mode])
      (mode : s.mode = .unpartitioned) : Partitioning.unpartitioned.HoldsOf parts := by
    refine required (.unpartitioned (orderProperties cs)) _ ?_ rfl
    rw [asks]
    simp [sortRequirement, mode]
  cases p with
  | streamSelect | streamLimit => exact ⟨layout, input, holds.of_sublists makes⟩
  | assign | unnest => exact ⟨layout, input, holds.of_expanded within makes⟩
  | streamProject vs =>
    refine ⟨layout.project vs, by rw [delivered, input]; rfl, holds.mapColumns ?_⟩
    exact List.Forall₂.imp (fun ts us same => same ▸ streamed_restrict ts vs) makes
  | preclusteredGroupBy keys decor =>
    refine ⟨layout.mapColumns (groupOutput? (keys ++ decor)), by rw [delivered, input]; rfl,
      holds.mapColumns ?_⟩
    exact List.Forall₂.imp (fun ts us joined => joined.streamed fun v w => groupOutput?_some) makes
  | externalGroupBy keys decor =>
    refine ⟨{ layout.mapColumns (groupOutput? (keys ++ decor)) with properties := [] },
      by rw [delivered, input]; rfl, fun q known => ?_, fun us _ => trivial⟩
    obtain ⟨given, recorded, rfl⟩ := Option.map_eq_some_iff.mp known
    refine (holds.partitioning given recorded).mapColumns (List.Forall₂.imp (fun ts us made u member => ?_) makes)
    obtain ⟨t, inside, values⟩ := made u member
    exact ⟨t, inside, fun v w found => values (w, v) (groupOutput?_some found)⟩
  | preSortedDistinct vs =>
    refine ⟨layout.project vs, by rw [delivered, input]; rfl, holds.mapColumns ?_⟩
    refine List.Forall₂.imp (fun ts us joined => joined.streamed fun v w kept => ?_) makes
    split at kept
    · rename_i member
      cases kept
      exact List.mem_map_of_mem member
    · cases kept
  | stableSort cs =>
    obtain ⟨partitioning, placed, holds⟩ := sorted_holds input holds (placed rfl) makes
    exact ⟨_, bind_ok_iff.mpr ⟨partitioning, placed, rfl⟩, holds⟩
  | inMemorySort cs =>
    obtain ⟨partitioning, placed, holds⟩ := sorted_holds input holds (placed rfl) makes
    exact ⟨_, bind_ok_iff.mpr ⟨partitioning, placed, rfl⟩, holds⟩
  | inMemoryHashJoin join =>
    obtain ⟨keyed, expanded⟩ := makes
    obtain ⟨partitioning, placed, partitioned⟩ := hashJoinPartitioning_holds input within holds keyed
      (joined rfl) (expanded.imp fun ts us expanded => expanded.streamed.carried)
    exact ⟨⟨partitioning, layout.properties⟩,
      bind_ok_iff.mpr ⟨partitioning, placed, bind_ok_iff.mpr ⟨layout, input, rfl⟩⟩, partitioned,
      (holds.of_expanded within expanded).properties⟩
  | hybridHashJoin join =>
    obtain ⟨keyed, extended⟩ := makes
    obtain ⟨partitioning, placed, partitioned⟩ := hashJoinPartitioning_holds input within holds keyed
      (joined rfl) (extended.imp fun ts us => carried_of_agreeOn)
    exact ⟨⟨partitioning, []⟩, bind_ok_iff.mpr ⟨partitioning, placed, rfl⟩, partitioned,
      fun us _ => trivial⟩
  | _ => cases makes

open LocalProperty (sampleRow integerOrder)

/-- Two partitions by the first variable, each in its order. The third variable equals the first. -/
def sampleParts : List (List Tuple) := [[sampleRow 1 7 1 9, sampleRow 2 8 2 9], [sampleRow 3 5 3 9]]

def sampleLayout : Layout := ⟨some (.hash [1] none), [.order ⟨1, .asc⟩]⟩

def sampleEqual : Facts := ⟨({} : Equivalence).merge 1 3, []⟩

/-- A join on the third variable. -/
def sampleJoin : Physical := inMemoryHashJoin ⟨.inner, .pairwise, [3], [11]⟩

/-- The tuples with two partners, none and one on the other side. -/
def sampleJoined : List (List Tuple) :=
  [[(sampleRow 1 7 1 9).extend [11] [.boolean true], (sampleRow 1 7 1 9).extend [11] [.boolean false]],
   [(sampleRow 3 5 3 9).extend [11] [.boolean true]]]

/-- The join delivers partitions by the third variable. -/
theorem delivered_holds_join : sampleLayout.HoldsOf integerOrder sampleParts ∧
    sampleJoin.Makes integerOrder (.ofList [1, 2, 3, 5]) sampleParts sampleJoined ∧
    Layout.HoldsOf integerOrder ⟨some (.hash [3] none), [.order ⟨1, .asc⟩]⟩ sampleJoined := by
  have within : sampleLayout.Within (.ofList [1, 2, 3, 5]) :=
    ⟨fun p known => by cases known; decide, by decide⟩
  have equal : ∀ t ∈ sampleParts.flatten, sampleEqual.equivalence.HoldsIn t := fun t member =>
    (Equivalence.HoldsIn.empty t).merge (by fin_cases member <;> rfl)
  have holds : sampleLayout.HoldsOf integerOrder sampleParts := by
    refine ⟨fun p known => ?_, ?_⟩
    · cases known
      intro i j ts us t u atI atJ inT inU agree
      have same := agree 1 (by decide)
      rcases i with _ | _ | i <;> rcases j with _ | _ | j <;> cases atI <;> cases atJ <;>
        fin_cases inT <;> fin_cases inU <;> first | rfl | exact absurd same (by decide)
    · simp [sampleParts, sampleLayout, LocalProperty.Arranged, LocalProperty.ArrangedAfter,
        LocalProperty.HoldsAmong, Direction.Allows, integerOrder, Tuple.AgreeOn, sampleRow, Tuple.extend]
  have satisfied : ∀ required, (sampleJoin.requirements .partitioned 2).layouts[0]? = some (some required) →
      Layout.missingPartitioning sampleEqual false required sampleLayout = none := by
    intro required asked
    cases asked
    decide
  have makes : sampleJoin.Makes integerOrder (.ofList [1, 2, 3, 5]) sampleParts sampleJoined := by
    refine ⟨by decide, .cons ⟨[sampleJoined[0], []], rfl, .cons ?_ (.cons ?_ .nil)⟩
      (.cons ⟨[sampleJoined[1]], rfl, .cons ?_ .nil⟩ .nil)⟩
    all_goals decide
  obtain ⟨layout', delivered, holds'⟩ := delivered_holds
    (s := ⟨.partitioned, {}, .ok sampleLayout, fun _ => .ok sampleLayout⟩) rfl within
    Equivalence.Disjoint.empty.merge equal holds satisfied makes
  cases delivered
  exact ⟨holds, makes, holds'⟩

end Physical

end QueryOptimizer
