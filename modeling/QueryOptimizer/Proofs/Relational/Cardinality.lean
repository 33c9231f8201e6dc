import Mathlib
import QueryOptimizer.Proofs.Derivation.Bounded
import QueryOptimizer.Proofs.Relational.Derivation
import QueryOptimizer.Proofs.Relational.Evaluation

/-! # Estimated numbers of tuples

An estimated number of tuples is an upper bound, as long as data sources hold no more rows than they
declare. Nested plans may yield any number of tuples here; the estimate of their owner relies on at most
one for each invocation.
-/

namespace QueryOptimizer

namespace Plan

variable {plan : Plan} {I : Interpretation} {frames : Frames} {id : NodeId} {ts : List Tuple}

/-- The tuples that a node may produce. The tuples of nested plans are combined in every way, so that
    a nested plan without tuples leaves none of its owner. -/
inductive Produces (plan : Plan) (I : Interpretation) : Frames → NodeId → List Tuple → Prop where
  | nestedSource {frames : Frames} {id owner : NodeId} {ts : List Tuple}
      (operator : plan.operator id = .nestedSource owner) (frame : frames owner = some ts) :
      Produces plan I frames id ts
  | plain {frames : Frames} {id : NodeId} {ins : Nat → List Tuple} {out : List Tuple}
      (inputs : ∀ k input, (plan.inputs id)[k]? = some input → Produces plan I frames input (ins k))
      (missing : ∀ k, (plan.inputs id)[k]? = none → ins k = [])
      (emits : (plan.operator id).Emits I (plan.inputColumns id) ins out) :
      Produces plan I frames id out
  | groupBy {frames : Frames} {id input : NodeId} {keys decor : List (Var × Expr)}
      {nested : NestedPlans} {us : List Tuple} {rows : List (List Scalar)}
      {grouped : List (List (Tuple × List Scalar))} {inner : Nat → NodeId → List Tuple}
      (operator : plan.operator id = .groupBy keys decor nested)
      (source : (plan.inputs id)[0]? = some input)
      (tuples : Produces plan I frames input us)
      (values : Evaluated I ((keys ++ decor).map (·.2)) us rows)
      (groups : grouped = groups (fun entry => entry.2.take keys.length) (us.zip rows))
      (yielded : ∀ i group, grouped[i]? = some group → ∀ root ∈ plan.nestedRoots id,
        Produces plan I (frames.enter id (group.map (·.1))) root (inner i root)) :
      Produces plan I frames id (grouped.mapIdx fun i group =>
        (combinations ((plan.nestedRoots id).map fun root => (plan.columns root, inner i root))).map
          fun t => t.extend ((keys ++ decor).map (·.1)) ((group.head?.map (·.2)).getD [])).flatten
  | subplan {frames : Frames} {id input : NodeId} {nested : NestedPlans} {us : List Tuple}
      {inner : Nat → NodeId → List Tuple}
      (operator : plan.operator id = .subplan nested)
      (source : (plan.inputs id)[0]? = some input)
      (tuples : Produces plan I frames input us)
      (yielded : ∀ i t, us[i]? = some t → ∀ root ∈ plan.nestedRoots id,
        Produces plan I (frames.enter id [t]) root (inner i root)) :
      Produces plan I frames id (us.mapIdx fun i t =>
        (combinations ((plan.nestedRoots id).map fun root => (plan.columns root, inner i root))).map
          fun u => Tuple.join (plan.columns input) t u).flatten

theorem combinations_single (yielded : NodeId → Tuple) (ids : List NodeId) :
    combinations (ids.map fun root => (plan.columns root, [yielded root])) =
      [plan.combine yielded ids] := by
  induction ids with
  | nil => rfl
  | cons id ids ih => simp [combinations, combine, ih]

theorem flatten_mapIdx_single {α β : Type} (l : List α) (f : Nat → α → β) :
    (l.mapIdx fun i a => [f i a]).flatten = l.mapIdx f := by
  induction l generalizing f with
  | nil => rfl
  | cons a l ih => simp [List.mapIdx_cons, ih]

/-- Where every nested plan yields one tuple, that is what is produced. -/
theorem Yields.produces (run : plan.Yields I frames id ts) : plan.Produces I frames id ts := by
  induction run with
  | nestedSource operator frame => exact .nestedSource operator frame
  | plain _ missing emits ih => exact .plain ih missing emits
  | @groupBy _ _ _ _ _ _ _ _ _ inner operator source _ values groups _ _ ihTuples ihYielded =>
    have produced := @Produces.groupBy _ _ _ _ _ _ _ _ _ _ _ (fun i root => [inner i root])
      operator source ihTuples values groups ihYielded
    simpa only [combinations_single, List.map_cons, List.map_nil, flatten_mapIdx_single] using produced
  | @subplan _ _ _ _ _ inner operator source _ _ ihTuples ihYielded =>
    have produced := @Produces.subplan _ _ _ _ _ _ _ (fun i root => [inner i root])
      operator source ihTuples ihYielded
    simpa only [combinations_single, List.map_cons, List.map_nil, flatten_mapIdx_single] using produced

/-- The frames in which a node outside of nested plans runs its own: one for each group, or for each
    tuple. -/
inductive Invokes (plan : Plan) (I : Interpretation) (owner : NodeId) : Frames → Prop where
  | group {input : NodeId} {keys decor : List (Var × Expr)} {nested : NestedPlans} {us : List Tuple}
      {rows : List (List Scalar)} {group : List (Tuple × List Scalar)}
      (operator : plan.operator owner = .groupBy keys decor nested)
      (source : (plan.inputs owner)[0]? = some input) (tuples : plan.Produces I .outer input us)
      (values : Evaluated I ((keys ++ decor).map (·.2)) us rows)
      (member : group ∈ groups (fun entry => entry.2.take keys.length) (us.zip rows)) :
      Invokes plan I owner (Frames.outer.enter owner (group.map (·.1)))
  | tuple {input : NodeId} {nested : NestedPlans} {us : List Tuple} {t : Tuple}
      (operator : plan.operator owner = .subplan nested)
      (source : (plan.inputs owner)[0]? = some input) (tuples : plan.Produces I .outer input us)
      (member : t ∈ us) : Invokes plan I owner (Frames.outer.enter owner [t])

/-- Whether nested plans yield at most one tuple for each invocation. -/
def NestedSingle (plan : Plan) (I : Interpretation) : Prop :=
  ∀ owner frames, plan.Reaches owner → plan.Invokes I owner frames →
    ∀ root ∈ plan.nestedRoots owner, ∀ ts, plan.Produces I frames root ts → ts.length ≤ 1

/-- Whether all scans sit on an empty source. -/
def ScansOnEmpty (plan : Plan) : Prop := ∀ n source vars, plan.Reaches n →
  plan.operator n = .scan source vars → ∀ input ∈ plan.inputs n, plan.operator input = .emptySource

end Plan

/-! ## Numbers of tuples -/

theorem combinations_length_le_one {lists : List (List Var × List Tuple)}
    (few : ∀ entry ∈ lists, entry.2.length ≤ 1) : (combinations lists).length ≤ 1 := by
  induction lists with
  | nil => exact le_rfl
  | cons entry lists ih =>
    obtain ⟨vs, ts⟩ := entry
    obtain ⟨first, rest⟩ := List.forall_mem_cons.mp few
    rcases ts with _ | ⟨t, _ | ⟨_, _⟩⟩
    · simp [combinations]
    · simpa [combinations] using ih rest
    · simp at first

theorem length_flatten_mapIdx_le {α β : Type} {l : List α} {f : Nat → α → List β}
    (few : ∀ i a, l[i]? = some a → (f i a).length ≤ 1) : (l.mapIdx f).flatten.length ≤ l.length := by
  have blocks : ∀ n ∈ (l.mapIdx f).map List.length, n ≤ 1 := by
    intro n member
    obtain ⟨block, isBlock, rfl⟩ := List.mem_map.mp member
    obtain ⟨i, small, rfl⟩ := List.mem_mapIdx.mp isBlock
    exact few i _ (List.getElem?_eq_getElem small)
  simpa [List.length_flatten] using List.sum_le_card_nsmul _ 1 blocks

theorem length_zip_map_le {α β γ : Type} (l : List α) (l' : List β) (f : α × β → γ) :
    ((l.zip l').map f).length ≤ l.length := by
  rw [List.length_map, List.length_zip]
  exact Nat.min_le_left _ _

theorem length_groups_le {α κ : Type} [DecidableEq κ] (key : α → κ) (items : List α) :
    (groups key items).length ≤ items.length := by
  rw [groups, List.length_map]
  calc (items.map key).dedup.length ≤ (items.map key).length := (List.dedup_sublist _).length_le
    _ = items.length := List.length_map _

theorem Selected.length_le {I : Interpretation} {condition : Expr} {ts out : List Tuple}
    (selected : Selected I condition ts out) : out.length ≤ ts.length := by
  obtain ⟨verdicts, _, rfl⟩ := selected
  rw [List.length_map]
  exact (List.length_filter_le _ _).trans (by rw [List.length_zip]; exact Nat.min_le_left _ _)

namespace Size

variable {size : Size} {k m : Nat}

/-- Whether a number of tuples is within the estimate, if there is one. -/
def Admits (size : Size) (k : Nat) : Prop := ∀ n ∈ size.cardinality, k ≤ n

theorem admits_unknown (k : Nat) : unknown.Admits k := fun _ impossible => by cases impossible

theorem Admits.mono (admits : size.Admits k) (fewer : m ≤ k) : size.Admits m :=
  fun n known => fewer.trans (admits n known)

theorem Admits.atMost (admits : size.Admits k) (fewer : k ≤ m) : (size.atMost m).Admits k := by
  intro n known
  cases shape : size.cardinality with
  | none =>
    simp only [Size.atMost, withCardinality, shape, Option.map_none, Option.getD_none, Option.mem_def,
      Option.some.injEq] at known
    exact known ▸ fewer
  | some n' =>
    simp only [Size.atMost, withCardinality, shape, Option.map_some, Option.getD_some, Option.mem_def,
      Option.some.injEq] at known
    exact known ▸ Nat.le_min.mpr ⟨admits n' shape, fewer⟩

end Size

/-- Whether data sources hold no more rows than they declare. -/
def Interpretation.RespectsCounts (I : Interpretation) (catalog : Catalog) : Prop :=
  ∀ name statistics, catalog.statistics? name = some statistics →
    (I.rows name).length ≤ statistics.rows

section Emitted

variable {s : Session} {id : NodeId} {I : Interpretation} {columns : Nat → List Var}
  {ins : Nat → List Tuple} {out : List Tuple} {sizes : List Size} {size : Size}

theorem admits_union (each : ∀ (k : Nat) (size : Size), sizes[k]? = some size → size.Admits (ins k).length)
    (missing : ∀ k : Nat, sizes[k]? = none → ins k = []) (done : Size.union sizes = .ok size) :
    size.Admits ((ins 0).length + (ins 1).length) := by
  rcases Size.union_cases sizes with ⟨_, failed⟩ | ⟨_, added⟩
  · cases failed.symm.trans done
  cases added.symm.trans done
  intro n known
  dsimp only at known
  split at known
  · rename_i all
    cases known
    rcases sizes with _ | ⟨first, rest⟩
    · simp [missing 0 rfl, missing 1 rfl]
    obtain ⟨m, knownFirst⟩ := Option.isSome_iff_exists.mp (all first List.mem_cons_self)
    have atFirst := each 0 first rfl m knownFirst
    rcases rest with _ | ⟨second, rest⟩
    · simpa [Size.counted, knownFirst, missing 1 rfl] using atFirst
    obtain ⟨k, knownSecond⟩ := Option.isSome_iff_exists.mp (all second (by simp))
    have atSecond := each 1 second rfl k knownSecond
    simp only [Size.counted, knownFirst, knownSecond]
    omega
  · cases known

/-- The estimate of an operator without nested plans admits what it emits, if the estimates of its
    inputs admit what they are. -/
theorem Session.admits_emitted (counts : I.RespectsCounts s.context.catalog)
    (each : ∀ (k : Nat) (size : Size), sizes[k]? = some size → size.Admits (ins k).length)
    (missing : ∀ k : Nat, sizes[k]? = none → ins k = [])
    (scanned : ∀ source vars, s.plan.operator id = .scan source vars → (ins 0).length ≤ 1)
    (emits : (s.plan.operator id).Emits I columns ins out)
    (done : s.sizeFromInputs id sizes = .ok size) : size.Admits out.length := by
  have first : (sizes.headD .unknown).Admits (ins 0).length := by
    cases sizes with
    | nil => exact Size.admits_unknown _
    | cons size sizes => exact each 0 size rfl
  unfold sizeFromInputs at done
  generalize s.plan.operator id = op at emits done scanned
  cases op with
  | nestedSource | groupBy | subplan => exact emits.elim
  | join | unnest | script => cases done; exact Size.admits_unknown _
  | exchange | replicate | write | insertDelete | sink => cases done; cases emits; exact first
  | emptySource =>
    cases done
    cases emits
    exact fun n known => (Option.mem_some.mp known).le
  | scan source vars =>
    cases emits
    dsimp only at done
    split at done <;> cases done
    · rename_i statistics known
      intro n same
      cases same
      have rows := counts source statistics known
      have one := scanned source vars rfl
      calc ((ins 0).flatMap fun t => (I.rows source).map fun row => t.extend vars row).length
          = (ins 0).length * (I.rows source).length := by simp [List.length_flatMap]
        _ ≤ 1 * statistics.rows := Nat.mul_le_mul one rows
        _ = statistics.rows := Nat.one_mul _
    · exact Size.admits_unknown _
  | select condition => cases done; exact first.mono (Selected.length_le emits)
  | assign vars exprs =>
    cases done
    obtain ⟨rows, _, rfl⟩ := emits
    exact first.mono (length_zip_map_le _ _ _)
  | runningAggregate vars exprs =>
    cases done
    obtain ⟨rows, _, rfl⟩ := emits
    exact first.mono (length_zip_map_le _ _ _)
  | project vars => cases done; cases emits; exact first.mono (List.length_map _).le
  | aggregate vars exprs =>
    cases done
    obtain ⟨row, _, rfl⟩ := emits
    exact fun n known => (Option.mem_some.mp known).le
  | distinct vars =>
    cases done
    cases emits
    exact first.mono ((List.length_filterMap_le _ _).trans (length_groups_le _ _))
  | order keys top =>
    obtain ⟨rows, _, rfl⟩ := emits
    have sorted : (((ins 0).zip rows).mergeSort fun a b =>
        precedes I.ascends (keys.map (·.1)) a.2 b.2).length ≤ (ins 0).length := by
      rw [List.length_mergeSort, List.length_zip]
      exact Nat.min_le_left _ _
    rw [← List.length_map] at sorted
    cases top with
    | none => cases done; exact first.mono ((List.length_take_le' _ _).trans sorted)
    | some k =>
      cases done
      exact (first.mono ((List.length_take_le' _ _).trans sorted)).atMost (List.length_take_le _ _)
  | limit count offset =>
    cases done
    cases emits
    refine (first.mono ?_).atMost (List.length_take_le _ _)
    exact (List.length_take_le' _ _).trans (by rw [List.length_drop]; exact Nat.sub_le _ _)
  | unionAll pairs =>
    cases emits
    simpa using admits_union each missing done

end Emitted

namespace Plan

variable {plan : Plan} {I : Interpretation} {catalog : Catalog} {id : NodeId} {size : Size} {ts : List Tuple}

theorem Produces.emits {frames : Frames} {op : Operator} (run : plan.Produces I frames id ts)
    (operator : plan.operator id = op) (plain : op.IsPlain) :
    ∃ ins, (∀ k input, (plan.inputs id)[k]? = some input → plan.Produces I frames input (ins k)) ∧
      op.Emits I (plan.inputColumns id) ins ts := by
  subst operator
  cases run with
  | nestedSource operator => rw [operator] at plain; exact plain.elim
  | groupBy operator => rw [operator] at plain; exact plain.elim
  | subplan operator => rw [operator] at plain; exact plain.elim
  | plain inputs _ emits => exact ⟨_, inputs, emits⟩

theorem Produces.frame {frames : Frames} {owner : NodeId} (run : plan.Produces I frames id ts)
    (operator : plan.operator id = .nestedSource owner) : frames owner = some ts := by
  cases run with
  | nestedSource operator' frame => cases operator.symm.trans operator'; exact frame
  | groupBy operator' => cases operator.symm.trans operator'
  | subplan operator' => cases operator.symm.trans operator'
  | plain _ _ emits => rw [operator] at emits; exact emits.elim

theorem sizeFollows_first {input : NodeId} {notes : NodeId → Size}
    (passes : (∃ keys decor nested, plan.operator id = .groupBy keys decor nested) ∨
      ∃ nested, plan.operator id = .subplan nested)
    (source : (plan.inputs id)[0]? = some input) (follow : plan.SizeFollows catalog id notes size) :
    size = notes input := by
  obtain ⟨rest, inputs⟩ := List.head?_eq_some_iff.mp (List.head?_eq_getElem?.trans source)
  unfold SizeFollows Session.sizeFromInputs at follow
  rw [inputs] at follow
  rcases passes with ⟨keys, decor, nested, operator⟩ | ⟨nested, operator⟩ <;>
  · simp only [operator] at follow
    exact (Except.ok.inj follow).symm

/-- What a node produces outside of nested plans is within its size. -/
theorem HasSize.admits (sized : plan.HasSize catalog id size) (counts : I.RespectsCounts catalog)
    (scans : plan.ScansOnEmpty) (single : plan.NestedSingle I) (reached : plan.Reaches id)
    (run : plan.Produces I .outer id ts) : size.Admits ts.length := by
  induction sized generalizing ts with
  | @node id notes size found follow ih =>
    have below : ∀ k input us, (plan.inputs id)[k]? = some input → plan.Produces I .outer input us →
        (notes input).Admits us.length := fun k input us isInput run =>
      ih input (List.mem_of_getElem? isInput) (reached.input (List.mem_of_getElem? isInput)) run
    cases run with
    | nestedSource _ frame => cases frame
    | @plain _ _ ins _ inputs missing emits =>
      refine Session.admits_emitted counts (fun k size at_ => ?_) (fun k none => ?_)
        (fun source vars operator => ?_) emits follow
      · rw [List.getElem?_map] at at_
        obtain ⟨input, isInput, rfl⟩ := Option.map_eq_some_iff.mp at_
        exact below k input _ isInput (inputs k input isInput)
      · rw [List.getElem?_map, Option.map_eq_none_iff] at none
        exact missing k none
      · cases isInput : (plan.inputs id)[0]? with
        | none => rw [missing 0 isInput]; exact Nat.zero_le _
        | some input =>
          have empty := scans id source vars reached operator input (List.mem_of_getElem? isInput)
          obtain ⟨_, _, emitted⟩ := (inputs 0 input isInput).emits empty trivial
          exact (congrArg List.length emitted).le
    | groupBy operator source tuples values groups yielded =>
      subst groups
      rw [sizeFollows_first (.inl ⟨_, _, _, operator⟩) source follow]
      refine (below 0 _ _ source tuples).mono ((length_flatten_mapIdx_le fun i group at_ => ?_).trans
        ((length_groups_le _ _).trans (by rw [List.length_zip]; exact Nat.min_le_left _ _)))
      rw [List.length_map]
      refine combinations_length_le_one fun entry member => ?_
      obtain ⟨root, isRoot, rfl⟩ := List.mem_map.mp member
      exact single id _ reached (.group operator source tuples values (List.mem_of_getElem? at_)) root isRoot _
        (yielded i group at_ root isRoot)
    | subplan operator source tuples yielded =>
      rw [sizeFollows_first (.inr ⟨_, operator⟩) source follow]
      refine (below 0 _ _ source tuples).mono (length_flatten_mapIdx_le fun i t at_ => ?_)
      rw [List.length_map]
      refine combinations_length_le_one fun entry member => ?_
      obtain ⟨root, isRoot, rfl⟩ := List.mem_map.mp member
      exact single id _ reached (.tuple operator source tuples (List.mem_of_getElem? at_)) root isRoot _
        (yielded i t at_ root isRoot)

end Plan

namespace Session

variable {s s' : Session} {I : Interpretation} {id : NodeId} {size : Size} {ts : List Tuple} {n : Nat}

/-- A node outside of nested plans produces at most as many tuples as are estimated. -/
theorem cardinality_bounds_tuples (found : s.SizesFound) (scans : s.plan.ScansOnEmpty)
    (single : s.plan.NestedSingle I) (counts : I.RespectsCounts s.context.catalog)
    (reached : s.plan.Reaches id) (done : s.size id = .ok (s', size)) (known : size.cardinality = some n)
    (run : s.plan.Produces I .outer id ts) : ts.length ≤ n := by
  obtain ⟨found', _, noted⟩ := found.sizeWithin reached done
  obtain ⟨table, rfl⟩ := sizeWithin_frame done
  exact (found' id size reached noted).admits counts scans single reached run n known

/-- The sample subplan over a data source that declares its two rows. -/
def countedSession : Session :=
  { sampleSession (.var 1) with
    context := { catalog := ⟨[{ name := "S", columns := [("a", .boolean)], statistics := some ⟨2, 8⟩ }]⟩ } }

theorem countedSession_single : countedSession.plan.NestedSingle sampleWorld := by
  intro owner frames reached invokes root isRoot ts run
  have member := sample_reaches reached
  have isRoot : owner = 2 ∧ root = 4 := by
    fin_cases member <;> first | exact ⟨rfl, List.mem_singleton.mp isRoot⟩ | cases isRoot
  obtain ⟨rfl, rfl⟩ := isRoot
  cases invokes with
  | group operator => cases operator
  | tuple operator source tuples inside =>
    -- The assignment makes no more tuples than it gets, and it gets the one of the invocation.
    have assigns : countedSession.plan.operator 4 = .assign [2] [.var 1] := rfl
    have nested : countedSession.plan.operator 3 = .nestedSource 2 := rfl
    obtain ⟨ins, inputs, rows, _, rfl⟩ := run.emits assigns trivial
    have single : some [_] = some (ins 0) := (inputs 0 3 rfl).frame nested
    refine (length_zip_map_le _ _ _).trans ?_
    rw [← Option.some.inj single]
    exact le_rfl

/-- A subplan produces as many tuples as its input, whose two rows are declared. -/
theorem cardinality_bounds_tuples_subplan : ∃ s' size, countedSession.size 2 = .ok (s', size) ∧
    size.cardinality = some 2 ∧ (∃ t u, countedSession.plan.Produces sampleWorld .outer 2 [t, u]) ∧
    ∀ ts, countedSession.plan.Produces sampleWorld .outer 2 ts → ts.length ≤ 2 := by
  refine ⟨_, _, rfl, rfl, ⟨_, _, (sample_run (e := .var 1) rfl rfl).produces⟩, fun ts run => ?_⟩
  refine cardinality_bounds_tuples (.of_empty rfl) (fun n source vars reached operator => ?_)
    countedSession_single (fun name statistics known => ?_) .refl rfl rfl run
  · have member := sample_reaches reached
    fin_cases member <;> cases operator
    intro input isInput
    cases List.mem_singleton.mp isInput
    rfl
  · obtain ⟨source, found, known⟩ := Option.bind_eq_some_iff.mp known
    cases List.mem_singleton.mp (List.mem_of_find?_eq_some found)
    cases known
    exact le_rfl

end Session

end QueryOptimizer
