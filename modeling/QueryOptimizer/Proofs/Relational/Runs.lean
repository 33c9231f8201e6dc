import Mathlib
import QueryOptimizer.Proofs.Plan.Schema
import QueryOptimizer.Proofs.Relational.Plan
import QueryOptimizer.Proofs.Variable

/-! # Tuples of runs

Every tuple that a node yields has values of the columns of the node only, and a node with nothing
nondeterministic below it yields one list of tuples at most.
-/

namespace QueryOptimizer

section Groups

variable {α κ : Type} [DecidableEq κ] {key : α → κ} {items group other : List α} {a b : α}

theorem mem_groups :
    group ∈ groups key items ↔
      ∃ k ∈ items.map key, items.filter (fun a => key a = k) = group := by
  simp [groups]

theorem mem_of_mem_group (member : group ∈ groups key items) (inside : a ∈ group) :
    a ∈ items := by
  obtain ⟨k, _, rfl⟩ := mem_groups.mp member
  exact (List.mem_filter.mp inside).1

/-- A group has a first item, which has the key of all its items. -/
theorem exists_head_of_mem_groups (member : group ∈ groups key items) :
    ∃ first, group.head? = some first ∧ first ∈ group ∧ ∀ a ∈ group, key a = key first := by
  obtain ⟨k, found, rfl⟩ := mem_groups.mp member
  obtain ⟨a, inside, rfl⟩ := List.mem_map.mp found
  have kept : a ∈ items.filter fun b => key b = key a := List.mem_filter.mpr ⟨inside, by simp⟩
  obtain ⟨first, rest, shape⟩ := List.exists_cons_of_ne_nil (List.ne_nil_of_mem kept)
  have same : ∀ b ∈ items.filter fun b => key b = key a, key b = key a := fun b h => by
    simpa using (List.mem_filter.mp h).2
  have isFirst : first ∈ items.filter fun b => key b = key a := shape ▸ List.mem_cons_self
  exact ⟨first, by rw [shape]; rfl, isFirst, fun b h => (same b h).trans (same first isFirst).symm⟩

/-- Each key has one group. -/
theorem groups_position_unique {i j : Nat} (atI : (groups key items)[i]? = some group)
    (atJ : (groups key items)[j]? = some other) (inGroup : a ∈ group) (inOther : b ∈ other)
    (same : key a = key b) : i = j := by
  unfold groups at atI atJ
  rw [List.getElem?_map, Option.map_eq_some_iff] at atI atJ
  obtain ⟨k, atI, rfl⟩ := atI
  obtain ⟨l, atJ, rfl⟩ := atJ
  have keyA : key a = k := by simpa using (List.mem_filter.mp inGroup).2
  have keyB : key b = l := by simpa using (List.mem_filter.mp inOther).2
  have sameKey : k = l := keyA.symm.trans (same.trans keyB)
  subst sameKey
  obtain ⟨small, _⟩ := List.getElem?_eq_some_iff.mp atI
  exact (List.getElem?_inj small (List.nodup_dedup _)).mp (atI.trans atJ.symm)

end Groups

/-! ## Runs without choices -/

section Unique

variable {I : Interpretation} {es : List Expr} {ts out out' : List Tuple}

theorem Evaluated.unique {rows rows' : List (List Scalar)}
    (deterministic : Expr.allDeterministic es = true)
    (h : Evaluated I es ts rows) (h' : Evaluated I es ts rows') : rows = rows' := by
  have each : Relator.RightUnique fun t row => Expr.EvaluateTo I t es row :=
    fun _ _ _ => Expr.EvaluateTo.unique deterministic
  exact List.right_unique_forall₂' each h h'

theorem evaluates_unique {e : Expr} {xs xs' : List Scalar} (deterministic : e.isDeterministic = true)
    (h : List.Forall₂ (fun t x => e.Evaluates I t x) ts xs)
    (h' : List.Forall₂ (fun t x => e.Evaluates I t x) ts xs') : xs = xs' := by
  have each : Relator.RightUnique fun t x => e.Evaluates I t x :=
    fun _ _ _ => Expr.Evaluates.unique deterministic
  exact List.right_unique_forall₂' each h h'

theorem Folded.unique {row row' : List Scalar} (deterministic : Expr.allDeterministic es = true)
    (h : Folded I ts es row) (h' : Folded I ts es row') : row = row' := by
  induction h generalizing row' with
  | nil => cases h'; rfl
  | cons first _ ih =>
    obtain ⟨here, rest⟩ := Bool.and_eq_true_iff.mp deterministic
    cases h' with
    | cons first' rest' => rw [I.folds_unique here first first', ih rest rest']

theorem Selected.unique {condition : Expr} (deterministic : condition.isDeterministic = true)
    (h : Selected I condition ts out) (h' : Selected I condition ts out') : out = out' := by
  obtain ⟨verdicts, values, rfl⟩ := h
  obtain ⟨verdicts', values', rfl⟩ := h'
  rw [evaluates_unique deterministic values values']

/-- Whether an operator makes the same tuples of the same inputs each time. -/
def Operator.Steady (op : Operator) : Prop :=
  Expr.allDeterministic op.exprs = true ∧ op.kind ≠ .script

theorem isDeterministic_of_singleton {e : Expr} (h : Expr.allDeterministic [e] = true) :
    e.isDeterministic = true :=
  (Bool.and_eq_true_iff.mp h).1

theorem Operator.Emits.unique {columns : Nat → List Var} {ins : Nat → List Tuple} {op : Operator}
    (steady : op.Steady) (h : op.Emits I columns ins out) (h' : op.Emits I columns ins out') :
    out = out' := by
  obtain ⟨deterministic, noScript⟩ := steady
  cases op with
  | nestedSource | groupBy | subplan => exact h.elim
  | script => exact absurd rfl noScript
  | emptySource | scan | project | distinct | limit | exchange | replicate | unionAll | write
  | insertDelete | sink => exact h.trans h'.symm
  | select => exact Selected.unique (isDeterministic_of_singleton deterministic) h h'
  | assign =>
    obtain ⟨rows, values, rfl⟩ := h
    obtain ⟨rows', values', rfl⟩ := h'
    rw [values.unique deterministic values']
  | join kind condition =>
    have single := isDeterministic_of_singleton deterministic
    cases kind with
    | inner => exact Selected.unique single h h'
    | leftOuter =>
      obtain ⟨blocks, joined, rfl⟩ := h
      obtain ⟨blocks', joined', rfl⟩ := h'
      have each : Relator.RightUnique fun t block =>
          Selected I condition ((ins 1).map fun u => Tuple.join (columns 0) t u) block :=
        fun _ _ _ => Selected.unique single
      rw [List.right_unique_forall₂' each joined joined']
  | aggregate =>
    obtain ⟨row, values, rfl⟩ := h
    obtain ⟨row', values', rfl⟩ := h'
    rw [values.unique deterministic values']
  | runningAggregate vars exprs =>
    obtain ⟨rows, values, rfl⟩ := h
    obtain ⟨rows', values', rfl⟩ := h'
    have each : Relator.RightUnique fun sofar row => Folded I sofar exprs row :=
      fun _ _ _ => Folded.unique deterministic
    rw [List.right_unique_forall₂' each values values']
  | order =>
    obtain ⟨rows, values, rfl⟩ := h
    obtain ⟨rows', values', rfl⟩ := h'
    rw [values.unique deterministic values']
  | unnest =>
    obtain ⟨rows, values, rfl⟩ := h
    obtain ⟨rows', values', rfl⟩ := h'
    rw [evaluates_unique (isDeterministic_of_singleton deterministic) values values']

end Unique

namespace Plan

variable {plan : Plan} {I : Interpretation} {frames : Frames} {id : NodeId} {ts : List Tuple}

theorem combine_congr {plan' : Plan} {yielded yielded' : NodeId → Tuple} {ids : List NodeId}
    (columns : ∀ id ∈ ids, plan.columns id = plan'.columns id)
    (same : ∀ id ∈ ids, yielded id = yielded' id) :
    plan.combine yielded ids = plan'.combine yielded' ids := by
  induction ids with
  | nil => rfl
  | cons id ids ih =>
    rw [combine, combine, columns id List.mem_cons_self, same id List.mem_cons_self,
      ih (fun other member => columns other (List.mem_cons_of_mem _ member))
        fun other member => same other (List.mem_cons_of_mem _ member)]

theorem Yields.frame {owner : NodeId} (run : plan.Yields I frames id ts)
    (operator : plan.operator id = .nestedSource owner) : frames owner = some ts := by
  cases run with
  | nestedSource operator' frame => cases operator.symm.trans operator'; exact frame
  | groupBy operator' => cases operator.symm.trans operator'
  | subplan operator' => cases operator.symm.trans operator'
  | plain _ _ emits => rw [operator] at emits; exact emits.elim

/-- A node with nothing nondeterministic below it has one run. -/
theorem Yields.unique (run : plan.Yields I frames id ts) {us : List Tuple}
    (steady : ∀ n, plan.Below id n → (plan.operator n).Steady) (run' : plan.Yields I frames id us) :
    ts = us := by
  have under : ∀ {id child}, child ∈ plan.children id →
      (∀ n, plan.Below id n → (plan.operator n).Steady) →
      ∀ n, plan.Below child n → (plan.operator n).Steady := fun member steady n reached =>
    steady n (Relation.ReflTransGen.head member reached)
  induction run generalizing us with
  | nestedSource operator frame => exact Option.some.inj (frame.symm.trans (run'.frame operator))
  | @plain frames id ins out inputs missing emits ih =>
    cases run' with
    | nestedSource operator => rw [operator] at emits; exact emits.elim
    | groupBy operator => rw [operator] at emits; exact emits.elim
    | subplan operator => rw [operator] at emits; exact emits.elim
    | @plain _ _ ins' _ inputs' missing' emits' =>
      have same : ins = ins' := by
        funext k
        cases found : (plan.inputs id)[k]? with
        | none => rw [missing k found, missing' k found]
        | some input =>
          have member : input ∈ plan.children id :=
            List.mem_append_left _ (List.mem_of_getElem? found)
          exact ih k input found (under member steady) (inputs' k input found)
      subst same
      exact Operator.Emits.unique (steady id .refl) emits emits'
  | @groupBy frames id input keys decor nested us rows grouped inner operator source tuples values
      groups _ yielded ihTuples ihYielded =>
      cases run' with
      | nestedSource operator' => cases operator.symm.trans operator'
      | subplan operator' => cases operator.symm.trans operator'
      | plain _ _ emits => rw [operator] at emits; exact emits.elim
      | @groupBy _ _ _ _ _ _ us' rows' grouped' inner' operator' source' tuples' values' groups' _
          yielded' =>
          cases operator.symm.trans operator'
          cases source.symm.trans source'
          have member : input ∈ plan.children id :=
            List.mem_append_left _ (List.mem_of_getElem? source)
          obtain rfl := ihTuples (under member steady) tuples'
          have deterministic := (steady id .refl).1
          rw [operator] at deterministic
          obtain rfl := values.unique deterministic values'
          obtain rfl : grouped = grouped' := groups.trans groups'.symm
          refine List.mapIdx_eq_mapIdx_iff.mpr fun i small => ?_
          have sameInner : ∀ root ∈ plan.nestedRoots id, inner i root = inner' i root :=
            fun root isRoot => List.singleton_injective <|
              ihYielded i _ (List.getElem?_eq_getElem small) root isRoot
                (under (List.mem_append_right _ isRoot) steady)
                (yielded' i _ (List.getElem?_eq_getElem small) root isRoot)
          rw [combine_congr (fun _ _ => rfl) sameInner]
  | @subplan frames id input nested us inner operator source tuples yielded ihTuples ihYielded =>
    cases run' with
    | nestedSource operator' => cases operator.symm.trans operator'
    | groupBy operator' => cases operator.symm.trans operator'
    | plain _ _ emits => rw [operator] at emits; exact emits.elim
    | @subplan _ _ _ _ us' inner' operator' source' tuples' yielded' =>
      cases operator.symm.trans operator'
      cases source.symm.trans source'
      have member : input ∈ plan.children id :=
        List.mem_append_left _ (List.mem_of_getElem? source)
      obtain rfl := ihTuples (under member steady) tuples'
      refine List.mapIdx_eq_mapIdx_iff.mpr fun i small => ?_
      have sameInner : ∀ root ∈ plan.nestedRoots id, inner i root = inner' i root :=
        fun root isRoot => List.singleton_injective <|
          ihYielded i _ (List.getElem?_eq_getElem small) root isRoot
            (under (List.mem_append_right _ isRoot) steady)
            (yielded' i _ (List.getElem?_eq_getElem small) root isRoot)
      rw [combine_congr (fun _ _ => rfl) sameInner]

end Plan

/-! ## Columns of tuples -/

namespace Tuple

variable {t u : Tuple} {vs ws : List Var}

theorem Within.mono (within : t.Within vs) (more : ∀ v ∈ vs, v ∈ ws) : t.Within ws :=
  fun v absent => within v fun member => absent (more v member)

theorem Within.empty (vs : List Var) : Tuple.empty.Within vs := fun _ _ => rfl

theorem Within.extend (within : t.Within vs) (ws : List Var) (xs : List Scalar) :
    (t.extend ws xs).Within (appendNew vs ws) := by
  intro v absent
  rw [mem_appendNew, not_or] at absent
  rw [extend_of_not_mem absent.2, within v absent.1]

theorem Within.row (vs : List Var) (xs : List Scalar) : (Tuple.empty.extend vs xs).Within vs :=
  fun _ absent => extend_of_not_mem absent

theorem Within.join {vs ws : List Var} (within : u.Within ws) (t : Tuple) :
    (Tuple.join vs t u).Within (vs ++ ws) := by
  intro v absent
  rw [List.mem_append, not_or] at absent
  rw [join_of_not_mem absent.1, within v absent.2]

end Tuple

theorem Selected.sound {I : Interpretation} {condition : Expr} {ts out : List Tuple} {t : Tuple}
    (selected : Selected I condition ts out) (member : t ∈ out) :
    t ∈ ts ∧ condition.Evaluates I t (.boolean true) := by
  obtain ⟨verdicts, values, rfl⟩ := selected
  obtain ⟨⟨t', x⟩, kept, rfl⟩ := List.mem_map.mp member
  obtain ⟨zipped, isTrue⟩ := List.mem_filter.mp kept
  have truth : x = .boolean true := by simpa using isTrue
  exact ⟨(List.of_mem_zip zipped).1, truth ▸ List.forall₂_zip values zipped⟩

namespace Operator

theorem unionTuple_within (columns : List UnionColumn) (side : UnionColumn → Var) (t : Tuple) :
    (unionTuple columns side t).Within (columns.map (·.output)) := by
  intro v absent
  have missing : columns.find? (fun c => c.output = v) = none := by
    refine List.find?_eq_none.mpr fun c member isOutput => absent ?_
    exact List.mem_map.mpr ⟨c, member, by simpa using isOutput⟩
  simp [unionTuple, missing]

variable {I : Interpretation} {cols nested : List (List Var)} {ins : Nat → List Tuple}
  {out : List Tuple} {op : Operator}

/-- Where a tuple of an operator without nested plans comes from. -/
def Makes (I : Interpretation) (columns : Nat → List Var) (ins : Nat → List Tuple) :
    Operator → Tuple → Prop
  | emptySource, o => o = Tuple.empty
  | scan source vars, o => ∃ t ∈ ins 0, ∃ row ∈ I.rows source, o = t.extend vars row
  | assign vars exprs, o => ∃ t ∈ ins 0, ∃ row, Expr.EvaluateTo I t exprs row ∧ o = t.extend vars row
  | runningAggregate vars exprs, o => ∃ t ∈ ins 0, ∃ row : List Scalar,
      exprs.length = row.length ∧ o = t.extend vars row
  | unnest v _ position, o => ∃ t ∈ ins 0, ∃ x y, o = t.extend (v :: position.toList) [x, y]
  | select condition, o => o ∈ ins 0 ∧ condition.Evaluates I o (.boolean true)
  | project vars, o | distinct vars, o => ∃ t ∈ ins 0, o = t.restrict vars
  | join kind condition, o => ∃ t ∈ ins 0,
      (∃ u ∈ ins 1, o = Tuple.join (columns 0) t u ∧ condition.Evaluates I o (.boolean true)) ∨
        kind = .leftOuter ∧ o = Tuple.join (columns 0) t
          (Tuple.empty.extend (columns 1) ((columns 1).map fun _ => .null .null))
  | aggregate vars exprs, o => ∃ row : List Scalar,
      exprs.length = row.length ∧ o = Tuple.empty.extend vars row
  | order .., o | limit .., o | exchange, o | replicate, o | write .., o | insertDelete .., o
  | sink, o => o ∈ ins 0
  | unionAll pairs, o => (∃ t ∈ ins 0, o = unionTuple pairs (·.left) t) ∨
      ∃ t ∈ ins 1, o = unionTuple pairs (·.right) t
  | script command _ outputs, o => ∃ ts rows, I.scripts command ts rows ∧
      ∃ row ∈ rows, o = Tuple.empty.extend outputs row
  | nestedSource _, _ | groupBy .., _ | subplan _, _ => False

theorem Emits.makes {columns : Nat → List Var} {o : Tuple} (run : op.Emits I columns ins out)
    (member : o ∈ out) : op.Makes I columns ins o := by
  cases op with
  | nestedSource | groupBy | subplan => exact run.elim
  | emptySource => exact List.mem_singleton.mp (run ▸ member)
  | scan source vars =>
    cases run
    obtain ⟨t, fromInput, fromRow⟩ := List.mem_flatMap.mp member
    obtain ⟨row, stored, rfl⟩ := List.mem_map.mp fromRow
    exact ⟨t, fromInput, row, stored, rfl⟩
  | select condition => exact Selected.sound run member
  | assign vars exprs =>
    obtain ⟨rows, values, rfl⟩ := run
    obtain ⟨⟨t, row⟩, zipped, rfl⟩ := List.mem_map.mp member
    exact ⟨t, (List.of_mem_zip zipped).1, row, List.forall₂_zip values zipped, rfl⟩
  | project vars =>
    cases run
    obtain ⟨t, fromInput, rfl⟩ := List.mem_map.mp member
    exact ⟨t, fromInput, rfl⟩
  | join kind condition =>
    cases kind with
    | inner =>
      obtain ⟨paired, isTrue⟩ := Selected.sound run member
      obtain ⟨t, fromLeft, paired⟩ := List.mem_flatMap.mp paired
      obtain ⟨u, fromRight, rfl⟩ := List.mem_map.mp paired
      exact ⟨t, fromLeft, .inl ⟨u, fromRight, rfl, isTrue⟩⟩
    | leftOuter =>
      obtain ⟨blocks, joined, rfl⟩ := run
      obtain ⟨⟨t, block⟩, zipped, member⟩ := List.mem_flatMap.mp member
      refine ⟨t, (List.of_mem_zip zipped).1, ?_⟩
      dsimp only at member
      split at member
      · exact .inr ⟨rfl, List.mem_singleton.mp member⟩
      · obtain ⟨paired, isTrue⟩ := Selected.sound (List.forall₂_zip joined zipped) member
        obtain ⟨u, fromRight, rfl⟩ := List.mem_map.mp paired
        exact .inl ⟨u, fromRight, rfl, isTrue⟩
  | aggregate vars exprs =>
    obtain ⟨row, folded, rfl⟩ := run
    exact ⟨row, folded.length_eq, List.mem_singleton.mp member⟩
  | runningAggregate vars exprs =>
    obtain ⟨rows, folded, rfl⟩ := run
    obtain ⟨⟨t, row⟩, zipped, rfl⟩ := List.mem_map.mp member
    obtain ⟨i, small, rfl⟩ := List.getElem_of_mem (List.of_mem_zip zipped).2
    have row := folded.get (folded.length_eq ▸ small) small
    exact ⟨t, (List.of_mem_zip zipped).1, _, row.length_eq, rfl⟩
  | distinct vars =>
    cases run
    obtain ⟨group, isGroup, head⟩ := List.mem_filterMap.mp member
    obtain ⟨t, isHead, rfl⟩ := Option.map_eq_some_iff.mp head
    exact ⟨t, mem_of_mem_group isGroup (List.mem_of_head? isHead), rfl⟩
  | order keys top =>
    obtain ⟨rows, _, rfl⟩ := run
    obtain ⟨⟨t, row⟩, sorted, rfl⟩ := List.mem_map.mp (List.mem_of_mem_take member)
    exact (List.of_mem_zip (List.mem_mergeSort.mp sorted)).1
  | limit count offset =>
    cases run
    exact List.mem_of_mem_drop (List.mem_of_mem_take member)
  | unnest v e position =>
    obtain ⟨rows, _, rfl⟩ := run
    obtain ⟨⟨t, x⟩, zipped, member⟩ := List.mem_flatMap.mp member
    obtain ⟨item, _, rfl⟩ := List.mem_map.mp member
    exact ⟨t, (List.of_mem_zip zipped).1, _, _, rfl⟩
  | exchange | replicate | write | insertDelete | sink =>
    cases run
    exact member
  | unionAll pairs =>
    cases run
    rcases List.mem_append.mp member with fromLeft | fromRight
    · obtain ⟨t, inside, rfl⟩ := List.mem_map.mp fromLeft
      exact .inl ⟨t, inside, rfl⟩
    · obtain ⟨t, inside, rfl⟩ := List.mem_map.mp fromRight
      exact .inr ⟨t, inside, rfl⟩
  | script command read written =>
    obtain ⟨rows, made, rfl⟩ := run
    obtain ⟨row, inside, rfl⟩ := List.mem_map.mp member
    exact ⟨_, rows, made, row, inside, rfl⟩

theorem mem_flatten_getD {v : Var} (k : Nat) (member : v ∈ cols[k]?.getD []) : v ∈ cols.flatten := by
  cases found : cols[k]? with
  | none => rw [found] at member; cases member
  | some vs =>
    rw [found] at member
    exact List.mem_flatten.mpr ⟨vs, List.mem_of_getElem? found, member⟩

theorem headD_eq_getD (cols : List (List Var)) : cols.headD [] = cols[0]?.getD [] := by
  cases cols <;> rfl

/-- The tuples of an operator have values of its schema only. -/
theorem Emits.within (run : op.Emits I (fun k => cols[k]?.getD []) ins out)
    (inputs : ∀ k, ∀ t ∈ ins k, t.Within (cols[k]?.getD [])) :
    ∀ t ∈ out, t.Within (op.schema cols nested) := by
  have first : ∀ t ∈ ins 0, t.Within (cols.headD []) := headD_eq_getD cols ▸ inputs 0
  have extended : ∀ {t : Tuple} (vars : List Var) (row : List Scalar), t ∈ ins 0 →
      (t.extend vars row).Within (appendNew cols.flatten vars) := fun vars row member =>
    ((inputs 0 _ member).mono fun _ => mem_flatten_getD 0).extend vars row
  intro o member
  have made := run.makes member
  cases op with
  | nestedSource | groupBy | subplan => exact made.elim
  | emptySource => exact made ▸ .empty _
  | scan source vars =>
    obtain ⟨t, fromInput, row, _, rfl⟩ := made
    exact extended vars row fromInput
  | assign vars exprs | runningAggregate vars exprs =>
    obtain ⟨t, fromInput, row, _, rfl⟩ := made
    exact extended vars row fromInput
  | unnest v e position =>
    obtain ⟨t, fromInput, x, y, rfl⟩ := made
    exact extended _ [x, y] fromInput
  | select condition => exact first o made.1
  | order | limit | exchange | replicate | write | insertDelete | sink => exact first o made
  | project vars | distinct vars =>
    obtain ⟨t, _, rfl⟩ := made
    exact .restrict t vars
  | join kind condition =>
    have pair : ∀ t u, u.Within (cols[1]?.getD []) →
        (Tuple.join (cols[0]?.getD []) t u).Within cols.flatten := fun t u within =>
      (within.join t).mono fun v either =>
        (List.mem_append.mp either).elim (mem_flatten_getD 0) (mem_flatten_getD 1)
    obtain ⟨t, _, ⟨u, right, rfl, _⟩ | ⟨_, rfl⟩⟩ := made
    · exact pair t u (inputs 1 u right)
    · exact pair t _ (.row _ _)
  | aggregate vars exprs =>
    obtain ⟨row, _, rfl⟩ := made
    exact .row vars row
  | unionAll pairs =>
    obtain ⟨u, _, rfl⟩ | ⟨u, _, rfl⟩ := made
    · exact unionTuple_within pairs _ u
    · exact unionTuple_within pairs _ u
  | script command read written =>
    obtain ⟨_, _, _, row, _, rfl⟩ := made
    exact .row written row

end Operator

namespace Plan

variable {plan : Plan} {I : Interpretation} {frames : Frames} {id : NodeId} {ts : List Tuple}

theorem columns_of_schema {vs : List Var} (computed : plan.schema id = .ok vs) :
    plan.columns id = vs := by
  unfold columns
  rw [schema_ok_iff.mp computed]
  rfl

theorem mapM_schema {ids : List NodeId} {schemas : List (List Var)}
    (computed : ids.mapM plan.schema = .ok schemas) : schemas = ids.map plan.columns := by
  have each := mapM_ok_iff_forall₂.mp computed
  induction each with
  | nil => rfl
  | cons first _ ih =>
    rw [List.map_cons, columns_of_schema first]
    exact congrArg _ (ih (mapM_ok_iff_forall₂.mpr ‹_›))

/-- The columns of a node follow from those of its children. -/
theorem SchemasCurrent.columns_eq (current : plan.SchemasCurrent) (reached : plan.Reaches id)
    (other : ∀ owner, plan.operator id ≠ .nestedSource owner) :
    plan.columns id = (plan.operator id).schema ((plan.inputs id).map plan.columns)
      ((plan.nestedRoots id).map plan.columns) := by
  obtain ⟨vs, stored, computed⟩ := current id reached
  rw [schemaFromChildren_eq other] at computed
  obtain ⟨inputs, fromInputs, computed⟩ := bind_ok_iff.mp computed
  obtain ⟨nested, fromNested, computed⟩ := bind_ok_iff.mp computed
  rw [columns_of_schema stored, ← mapM_schema fromInputs, ← mapM_schema fromNested,
    pure_ok_iff.mp computed]

/-- A nested source has the columns of the input of its owner. -/
theorem SchemasCurrent.columns_nestedSource {owner : NodeId} (current : plan.SchemasCurrent)
    (reached : plan.Reaches id) (operator : plan.operator id = .nestedSource owner) :
    ∃ input, (plan.inputs owner)[0]? = some input ∧ plan.columns id = plan.columns input := by
  obtain ⟨vs, stored, computed⟩ := current id reached
  obtain ⟨input, found, schema⟩ := schemaFromChildren_of_nestedSource operator computed
  exact ⟨input, input_ok_iff.mp found, (columns_of_schema stored).trans (columns_of_schema schema).symm⟩

theorem inputColumns_eq (plan : Plan) (id : NodeId) :
    plan.inputColumns id = fun k => ((plan.inputs id).map plan.columns)[k]?.getD [] := by
  funext k
  rw [List.getElem?_map]
  rfl

theorem inputColumns_of_getElem? {index : Nat} {input : NodeId}
    (found : (plan.inputs id)[index]? = some input) :
    plan.inputColumns id index = plan.columns input := by
  simp [inputColumns, found]

theorem combine_within (yielded : NodeId → Tuple) (ids : List NodeId)
    (each : ∀ id ∈ ids, (yielded id).Within (plan.columns id)) :
    (plan.combine yielded ids).Within (ids.map plan.columns).flatten := by
  induction ids with
  | nil => exact .empty _
  | cons id ids ih =>
    exact (ih fun other member => each other (List.mem_cons_of_mem _ member)).join _

/-- Whether the tuples that nested plans run on are as those of the input of their owner. -/
def FramesHold (plan : Plan) (P : List Var → Tuple → Prop) (frames : Frames) : Prop :=
  ∀ owner ts, frames owner = some ts → ∀ t ∈ ts, P (plan.inputColumns owner 0) t

theorem FramesHold.enter {P : List Var → Tuple → Prop} {owner : NodeId}
    (framed : plan.FramesHold P frames) (each : ∀ t ∈ ts, P (plan.inputColumns owner 0) t) :
    plan.FramesHold P (frames.enter owner ts) := by
  intro id us frame
  unfold Frames.enter at frame
  split at frame
  · rename_i same
    cases frame
    exact same ▸ each
  · exact framed id us frame

/-- What operators bring about for the tuples of their schema, given that it holds of their inputs. -/
structure Carries (plan : Plan) (I : Interpretation) (P : List Var → Tuple → Prop) : Prop where
  plain : ∀ {n ins out}, plan.Reaches n →
    (plan.operator n).Emits I (fun k => ((plan.inputs n).map plan.columns)[k]?.getD []) ins out →
    (∀ k, ∀ t ∈ ins k, P (((plan.inputs n).map plan.columns)[k]?.getD []) t) → ∀ o ∈ out,
    P ((plan.operator n).schema ((plan.inputs n).map plan.columns)
      ((plan.nestedRoots n).map plan.columns)) o
  groupBy : ∀ {n t row yielded} {entries : List (Var × Expr)},
    Expr.EvaluateTo I t (entries.map (·.2)) row →
    (∀ root ∈ plan.nestedRoots n, P (plan.columns root) (yielded root)) →
    P (appendNew ((plan.nestedRoots n).map plan.columns).flatten (entries.map (·.1)))
      ((plan.combine yielded (plan.nestedRoots n)).extend (entries.map (·.1)) row)
  subplan : ∀ {n nested input t yielded}, plan.Reaches n → plan.operator n = .subplan nested →
    (plan.inputs n)[0]? = some input → P (plan.columns input) t →
    (∀ root ∈ plan.nestedRoots n, P (plan.columns root) (yielded root)) →
    P (appendNew ((plan.inputs n).map plan.columns).flatten
        ((plan.nestedRoots n).map plan.columns).flatten)
      (Tuple.join (plan.columns input) t (plan.combine yielded (plan.nestedRoots n)))

namespace Carries

variable {P : List Var → Tuple → Prop} (carries : plan.Carries I P) (current : plan.SchemasCurrent)

include carries current

theorem yields (run : plan.Yields I frames id ts) (reached : plan.Reaches id)
    (framed : plan.FramesHold P frames) : ∀ t ∈ ts, P (plan.columns id) t := by
  induction run with
  | @nestedSource frames id owner ts operator frame =>
    obtain ⟨input, found, columns⟩ := current.columns_nestedSource reached operator
    rw [columns, ← inputColumns_of_getElem? found]
    exact framed owner ts frame
  | @plain frames id ins out inputs missing emits ih =>
    have other : ∀ owner, plan.operator id ≠ .nestedSource owner := by
      intro owner operator
      rw [operator] at emits
      exact emits.elim
    rw [current.columns_eq reached other]
    rw [inputColumns_eq] at emits
    refine carries.plain reached emits fun k t member => ?_
    rw [List.getElem?_map]
    cases found : (plan.inputs id)[k]? with
    | none => rw [missing k found] at member; cases member
    | some input =>
      exact ih k input found (reached.input (List.mem_of_getElem? found)) framed t member
  | @groupBy frames id input keys decor nested us rows grouped inner operator source _ values groups
      _ _ ihTuples ihYielded =>
      have tuples := ihTuples (reached.input (List.mem_of_getElem? source)) framed
      subst groups
      rw [current.columns_eq reached (by simp [operator]), operator]
      intro t member
      obtain ⟨i, small, rfl⟩ := List.mem_mapIdx.mp member
      have isGroup := List.getElem_mem small
      obtain ⟨entry, isHead, inside, _⟩ := exists_head_of_mem_groups isGroup
      rw [isHead]
      refine carries.groupBy (List.forall₂_zip values (mem_of_mem_group isGroup inside))
        fun root isRoot => ihYielded i _ (List.getElem?_eq_getElem small) root isRoot
          (reached.nestedRoot isRoot) (framed.enter fun u inGroup => ?_) _ List.mem_cons_self
      obtain ⟨⟨u, row⟩, inside, rfl⟩ := List.mem_map.mp inGroup
      rw [inputColumns_of_getElem? source]
      exact tuples u (List.of_mem_zip (mem_of_mem_group isGroup inside)).1
  | @subplan frames id input nested us inner operator source _ _ ihTuples ihYielded =>
    have tuples := ihTuples (reached.input (List.mem_of_getElem? source)) framed
    rw [current.columns_eq reached (by simp [operator]), operator]
    intro t member
    obtain ⟨i, small, rfl⟩ := List.mem_mapIdx.mp member
    refine carries.subplan reached operator source (tuples _ (List.getElem_mem small))
      fun root isRoot => ihYielded i _ (List.getElem?_eq_getElem small) root isRoot
        (reached.nestedRoot isRoot) (framed.enter fun u single => ?_) _ List.mem_cons_self
    rw [List.mem_singleton.mp single, inputColumns_of_getElem? source]
    exact tuples _ (List.getElem_mem small)

theorem framesHold (invoked : plan.Invocation I frames) : plan.FramesHold P frames := by
  induction invoked with
  | outer => intro owner ts impossible; cases impossible
  | enter _ reached source tuples subset ih =>
    refine ih.enter fun t member => ?_
    rw [inputColumns_of_getElem? source]
    exact carries.yields current tuples (reached.input (List.mem_of_getElem? source)) ih t
      (subset t member)

end Carries

/-- Whether nested plans run on tuples with the columns of the input of their owner. -/
abbrev FramesWithin (plan : Plan) (frames : Frames) : Prop := plan.FramesHold (fun vs t => t.Within vs) frames

theorem carries_within : plan.Carries I fun vs t => t.Within vs where
  plain _ emits inputs := emits.within inputs
  groupBy _ yielded := (combine_within _ _ yielded).extend _ _
  subplan _ _ source _ yielded := by
    refine ((combine_within _ _ yielded).join _).mono fun v member => mem_appendNew.mpr ?_
    refine (List.mem_append.mp member).imp_left fun inInput => ?_
    exact List.mem_flatten.mpr ⟨_, List.mem_map_of_mem (List.mem_of_getElem? source), inInput⟩

/-- Every tuple has values of the columns of its node only. -/
theorem Yields.within (current : plan.SchemasCurrent) (run : plan.Yields I frames id ts)
    (reached : plan.Reaches id) (framed : plan.FramesWithin frames) :
    ∀ t ∈ ts, t.Within (plan.columns id) :=
  carries_within.yields current run reached framed

theorem Invocation.framesWithin (current : plan.SchemasCurrent)
    (invoked : plan.Invocation I frames) : plan.FramesWithin frames :=
  carries_within.framesHold current invoked

/-- A nested source yields some of the tuples that the input of its owner may yield. -/
theorem Invocation.frame {owner : NodeId} (invoked : plan.Invocation I frames)
    (frame : frames owner = some ts) :
    ∃ around input us, plan.Invocation I around ∧ (plan.inputs owner)[0]? = some input ∧
      plan.Yields I around input us ∧ ∀ t ∈ ts, t ∈ us := by
  induction invoked generalizing ts with
  | outer => cases frame
  | @enter frames entered input us ts' around _ source tuples subset ih =>
    unfold Frames.enter at frame
    split at frame
    · rename_i same
      cases frame
      exact ⟨frames, input, us, around, same ▸ source, tuples, subset⟩
    · exact ih frame

end Plan

end QueryOptimizer
