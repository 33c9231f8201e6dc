import Mathlib
import QueryOptimizer.Proofs.Plan.Replaced
import QueryOptimizer.Proofs.Relational.Conditions
import QueryOptimizer.Proofs.Relational.OuterJoin

/-! # Tuples that agree but for some variables

An operator that does not read some variables makes of tuples that agree but for them tuples that agree
but for them. This carries over to nodes of two plans, if it holds of their inputs and of the roots of
their nested plans.
-/

namespace QueryOptimizer

/-! ## Lists in pairs -/

section Pairs

variable {α β γ δ : Type} {R : α → β → Prop} {S : γ → δ → Prop} {as : List α} {bs : List β}

/-- Results of the items of one list give results of their partners. -/
theorem exists_partners {P : α → γ → Prop} {Q : β → δ → Prop} {cs : List γ}
    (pairs : List.Forall₂ R as bs) (results : List.Forall₂ P as cs)
    (each : ∀ a b c, R a b → P a c → ∃ d, Q b d ∧ S c d) :
    ∃ ds, List.Forall₂ Q bs ds ∧ List.Forall₂ S cs ds := by
  induction pairs generalizing cs with
  | nil =>
    cases results
    exact ⟨[], .nil, .nil⟩
  | cons pair _ ih =>
    cases results with
    | cons result results =>
      obtain ⟨d, first, related⟩ := each _ _ _ pair result
      obtain ⟨ds, rest, others⟩ := ih results
      exact ⟨d :: ds, .cons first rest, .cons related others⟩

/-- Partners have the same results. -/
theorem same_results {P : α → γ → Prop} {Q : β → γ → Prop} {cs : List γ}
    (pairs : List.Forall₂ R as bs) (results : List.Forall₂ P as cs)
    (each : ∀ a b c, R a b → P a c → Q b c) : List.Forall₂ Q bs cs := by
  obtain ⟨ds, partners, same⟩ := exists_partners (S := Eq) pairs results
    fun a b c pair result => ⟨c, each a b c pair result, rfl⟩
  rw [List.forall₂_eq_eq_eq] at same
  exact same ▸ partners

theorem forall₂_zip_zip {cs : List γ} {ds : List δ} (first : List.Forall₂ R as bs)
    (second : List.Forall₂ S cs ds) :
    List.Forall₂ (fun a b => R a.1 b.1 ∧ S a.2 b.2) (as.zip cs) (bs.zip ds) := by
  induction first generalizing cs ds with
  | nil => exact .nil
  | cons pair _ ih =>
    cases second with
    | nil => exact .nil
    | cons result results => exact .cons ⟨pair, result⟩ (ih results)

theorem forall₂_labelled (pairs : List.Forall₂ R as bs) (labels : List γ) :
    List.Forall₂ (fun a b => R a.1 b.1 ∧ a.2 = b.2) (as.zip labels) (bs.zip labels) :=
  forall₂_zip_zip pairs (List.forall₂_same.mpr fun _ _ => rfl)

theorem forall₂_map_fst {as : List (α × γ)} {bs : List (β × δ)}
    (pairs : List.Forall₂ (fun a b => R a.1 b.1 ∧ S a.2 b.2) as bs) :
    List.Forall₂ R (as.map (·.1)) (bs.map (·.1)) :=
  List.rel_map (fun _ _ pair => pair.1) pairs

variable (pairs : List.Forall₂ R as bs)

include pairs

theorem forall₂_inits : List.Forall₂ (List.Forall₂ R) as.inits bs.inits := by
  induction pairs with
  | nil => exact .cons .nil .nil
  | @cons a b as bs pair _ ih =>
    rw [List.inits_cons, List.inits_cons]
    exact .cons .nil (List.rel_map (fun _ _ rest => .cons pair rest) ih)

theorem forall₂_mergeSort {p : α → α → Bool} {q : β → β → Bool}
    (same : ∀ a b c d, R a b → R c d → p a c = q b d) :
    List.Forall₂ R (as.mergeSort p) (bs.mergeSort q) := by
  -- Both lists are sorted as one list of pairs.
  let both := as.zip bs
  let before : α × β → α × β → Bool := fun x y => p x.1 y.1
  have related : ∀ x ∈ both, R x.1 x.2 := fun x member => List.forall₂_zip pairs member
  have left : (both.mergeSort before).map (·.1) = as.mergeSort p := by
    rw [List.map_mergeSort (s := p) fun _ _ _ _ => rfl, List.map_fst_zip pairs.length_eq.le]
  have right : (both.mergeSort before).map (·.2) = bs.mergeSort q := by
    rw [List.map_mergeSort (s := q) fun x hx y hy => same _ _ _ _ (related x hx) (related y hy),
      List.map_snd_zip pairs.length_eq.ge]
  rw [← left, ← right, List.forall₂_map_left_iff, List.forall₂_map_right_iff, List.forall₂_same]
  exact fun x member => related x (List.mem_mergeSort.mp member)

theorem forall₂_groups {κ : Type} [DecidableEq κ] {key : α → κ} {key' : β → κ}
    (same : ∀ a b, R a b → key a = key' b) :
    List.Forall₂ (List.Forall₂ R) (groups key as) (groups key' bs) := by
  have keys : as.map key = bs.map key' := by
    rw [← List.forall₂_eq_eq_eq, List.forall₂_map_left_iff, List.forall₂_map_right_iff]
    exact pairs.imp same
  unfold groups
  rw [keys, List.forall₂_map_left_iff, List.forall₂_map_right_iff, List.forall₂_same]
  intro k _
  refine List.rel_filter (fun a b pair => ?_) pairs
  simp only [decide_eq_true_eq, same a b pair]

theorem forall₂_mapIdx {f : Nat → α → γ} {g : Nat → β → δ}
    (each : ∀ i a b, bs[i]? = some b → R a b → S (f i a) (g i b)) :
    List.Forall₂ S (as.mapIdx f) (bs.mapIdx g) := by
  refine List.forall₂_iff_get.mpr ⟨by simpa using pairs.length_eq, fun i small small' => ?_⟩
  rw [List.length_mapIdx] at small small'
  simp only [List.get_eq_getElem, List.getElem_mapIdx]
  exact each i _ _ (List.getElem?_eq_getElem small') (pairs.get small small')

theorem isEmpty_eq_of_forall₂ : as.isEmpty = bs.isEmpty := by
  cases pairs <;> rfl

end Pairs

/-! ## Tuples -/

namespace Tuple

variable {dropped vs ws : List Var} {t t' u u' : Tuple}

/-- Whether two tuples have the same values of all variables that are not dropped. -/
def AgreeBut (dropped : List Var) (t u : Tuple) : Prop := ∀ v ∉ dropped, t v = u v

namespace AgreeBut

theorem refl (dropped : List Var) (t : Tuple) : t.AgreeBut dropped t := fun _ _ => rfl

theorem symm (agree : t.AgreeBut dropped u) : u.AgreeBut dropped t :=
  fun v kept => (agree v kept).symm

theorem trans (first : t.AgreeBut dropped t') (second : t'.AgreeBut dropped u) :
    t.AgreeBut dropped u := fun v kept => (first v kept).trans (second v kept)

theorem on (agree : t.AgreeBut dropped u) (kept : ∀ v ∈ vs, v ∉ dropped) : t.AgreeOn u vs :=
  fun v member => agree v (kept v member)

theorem extend (agree : t.AgreeBut dropped u) (vs : List Var) (xs : List Scalar) :
    (t.extend vs xs).AgreeBut dropped (u.extend vs xs) := by
  intro v kept
  unfold Tuple.extend
  rw [agree v kept]

theorem restrict (agree : t.AgreeBut dropped u) (vs : List Var) :
    (t.restrict vs).AgreeBut dropped (u.restrict vs) := by
  intro v kept
  unfold Tuple.restrict
  rw [agree v kept]

theorem restrict_eq (agree : t.AgreeBut dropped u) (kept : ∀ v ∈ vs, v ∉ dropped) :
    t.restrict vs = u.restrict vs := by
  funext v
  unfold Tuple.restrict
  split
  · rename_i member
    exact agree v (kept v member)
  · rfl

theorem join (columns : ∀ v ∉ dropped, v ∈ vs ↔ v ∈ ws) (left : t.AgreeBut dropped t')
    (right : u.AgreeBut dropped u') :
    (Tuple.join vs t u).AgreeBut dropped (Tuple.join ws t' u') := by
  intro v kept
  unfold Tuple.join
  simp only [columns v kept, left v kept, right v kept]

theorem nulls (columns : ∀ v ∉ dropped, v ∈ vs ↔ v ∈ ws) :
    (Tuple.nulls vs).AgreeBut dropped (Tuple.nulls ws) := by
  intro v kept
  by_cases member : v ∈ vs
  · rw [nulls_of_mem member, nulls_of_mem ((columns v kept).mp member)]
  · have absent : v ∉ ws := fun listed => member ((columns v kept).mpr listed)
    exact (extend_of_not_mem member).trans (extend_of_not_mem absent).symm

end AgreeBut

end Tuple

/-! ## Operators -/

/-- Whether aggregates depend on the variables of their expressions only. -/
def Interpretation.FoldsLocally (I : Interpretation) : Prop :=
  ∀ e ts us x, List.Forall₂ (fun t u => t.AgreeOn u e.occurrences) ts us → I.folds e ts x →
    I.folds e us x

section Agree

variable {I : Interpretation} {dropped : List Var} {ts us out : List Tuple} {es : List Expr}
  {rows : List (List Scalar)} (alike : List.Forall₂ (Tuple.AgreeBut dropped) ts us)

include alike

theorem Evaluated.agree (values : Evaluated I es ts rows)
    (unread : ∀ v ∈ Expr.occurrencesList es, v ∉ dropped) : Evaluated I es us rows :=
  same_results alike values fun _ _ _ pair value => value.congr (pair.on unread)

theorem evaluates_agree {e : Expr} {xs : List Scalar}
    (values : List.Forall₂ (fun t x => e.Evaluates I t x) ts xs)
    (unread : ∀ v ∈ e.occurrences, v ∉ dropped) :
    List.Forall₂ (fun t x => e.Evaluates I t x) us xs :=
  same_results alike values fun _ _ _ pair value => value.congr (pair.on unread)

theorem Folded.agree {row : List Scalar} (local_ : I.FoldsLocally) (folded : Folded I ts es row)
    (unread : ∀ v ∈ Expr.occurrencesList es, v ∉ dropped) : Folded I us es row := by
  induction folded with
  | nil => exact .nil
  | @cons e x es row first _ ih =>
    refine .cons (local_ e ts us x (alike.imp fun _ _ pair => pair.on fun v occurs => ?_) first)
      (ih fun v occurs => unread v (List.mem_append_right _ occurs))
    exact unread v (List.mem_append_left _ occurs)

theorem Selected.agree {condition : Expr} (selected : Selected I condition ts out)
    (unread : ∀ v ∈ condition.occurrences, v ∉ dropped) :
    ∃ out', Selected I condition us out' ∧ List.Forall₂ (Tuple.AgreeBut dropped) out out' := by
  obtain ⟨verdicts, values, rfl⟩ := selected
  refine ⟨_, ⟨verdicts, evaluates_agree alike values unread, rfl⟩, ?_⟩
  exact forall₂_map_fst
    (List.rel_filter (fun _ _ pair => by simp only [pair.2]) (forall₂_labelled alike verdicts))

end Agree

namespace Operator

variable {I : Interpretation} {dropped : List Var} {columns columns' : Nat → List Var}
  {ins ins' : Nat → List Tuple} {us ts out : List Tuple} {op op' : Operator}

theorem unionTuple_agree {pairs : List UnionColumn} {side : UnionColumn → Var} {t u : Tuple}
    (agree : t.AgreeBut dropped u) (unread : ∀ c ∈ pairs, side c ∉ dropped) :
    unionTuple pairs side t = unionTuple pairs side u := by
  funext v
  unfold unionTuple
  cases found : pairs.find? fun c => c.output = v with
  | none => rfl
  | some c => exact agree (side c) (unread c (List.mem_of_find?_eq_some found))

/-- An operator that reads no dropped variable makes tuples that agree of tuples that agree. -/
theorem Emits.agree (local_ : I.FoldsLocally) (emits : op.Emits I columns ins out)
    (agree : ∀ k, List.Forall₂ (Tuple.AgreeBut dropped) (ins k) (ins' k))
    (sameColumns : ∀ k, ∀ v ∉ dropped, v ∈ columns k ↔ v ∈ columns' k)
    (unread : ∀ v ∈ op.used, v ∉ dropped) :
    ∃ out', op.Emits I columns' ins' out' ∧ List.Forall₂ (Tuple.AgreeBut dropped) out out' := by
  have unreadExpr : ∀ e ∈ op.exprs, ∀ v ∈ e.occurrences, v ∉ dropped := fun e member v occurs =>
    unread v (op.mem_used member occurs)
  have unreadExprs : ∀ v ∈ Expr.occurrencesList op.exprs, v ∉ dropped := by
    intro v occurs
    rw [Expr.occurrencesList_eq] at occurs
    obtain ⟨e, member, occurs⟩ := List.mem_flatMap.mp occurs
    exact unreadExpr e member v occurs
  have joined : ∀ {t t' : Tuple}, t.AgreeBut dropped t' → List.Forall₂ (Tuple.AgreeBut dropped)
      ((ins 1).map fun u => Tuple.join (columns 0) t u)
      ((ins' 1).map fun u => Tuple.join (columns' 0) t' u) := fun pair =>
    List.rel_map (fun _ _ other => .join (sameColumns 0) pair other) (agree 1)
  cases op with
  | nestedSource | groupBy | subplan => exact emits.elim
  | emptySource =>
    cases emits
    exact ⟨_, rfl, .cons (.refl _ _) .nil⟩
  | scan source vars =>
    cases emits
    refine ⟨_, rfl, List.rel_flatMap (agree 0) fun t u pair => ?_⟩
    rw [List.forall₂_map_left_iff, List.forall₂_map_right_iff, List.forall₂_same]
    exact fun row _ => pair.extend vars row
  | select condition => exact Selected.agree (agree 0) emits (unreadExpr _ List.mem_cons_self)
  | assign vars exprs =>
    obtain ⟨rows, values, rfl⟩ := emits
    refine ⟨_, ⟨rows, values.agree (agree 0) (unreadExprs), rfl⟩, ?_⟩
    refine List.rel_map (fun a b pair => ?_) (forall₂_labelled (agree 0) rows)
    rw [pair.2]
    exact pair.1.extend vars b.2
  | project vars =>
    cases emits
    exact ⟨_, rfl, List.rel_map (fun _ _ pair => pair.restrict vars) (agree 0)⟩
  | join kind condition =>
    have unreadHere := unreadExpr _ List.mem_cons_self
    cases kind with
    | inner =>
      exact Selected.agree (List.rel_flatMap (agree 0) fun _ _ pair => joined pair) emits unreadHere
    | leftOuter =>
      obtain ⟨blocks, each, rfl⟩ := emits
      obtain ⟨blocks', each', related⟩ := exists_partners (agree 0) each
        fun t t' block pair selected => Selected.agree (joined pair) selected unreadHere
      refine ⟨_, ⟨blocks', each', rfl⟩,
        List.rel_flatMap (forall₂_zip_zip (agree 0) related) fun a b pair => ?_⟩
      rw [isEmpty_eq_of_forall₂ pair.2]
      split
      · exact .cons (.join (sameColumns 0) pair.1 (.nulls (sameColumns 1))) .nil
      · exact pair.2
  | aggregate vars exprs =>
    obtain ⟨row, folded, rfl⟩ := emits
    exact ⟨_, ⟨row, folded.agree (agree 0) local_ (unreadExprs), rfl⟩,
      .cons (.refl _ _) .nil⟩
  | runningAggregate vars exprs =>
    obtain ⟨rows, folded, rfl⟩ := emits
    have sofar := List.forall₂_drop 1 (forall₂_inits (agree 0))
    rw [List.drop_one, List.drop_one] at sofar
    have folded' := same_results sofar folded fun _ _ _ pairs folded =>
      Folded.agree pairs local_ folded (unreadExprs)
    refine ⟨_, ⟨rows, folded', rfl⟩, ?_⟩
    refine List.rel_map (fun a b pair => ?_) (forall₂_labelled (agree 0) rows)
    rw [pair.2]
    exact pair.1.extend vars b.2
  | distinct vars =>
    cases emits
    have keys : ∀ t u : Tuple, t.AgreeBut dropped u → vars.map t = vars.map u := fun t u pair =>
      List.map_congr_left (pair.on unread)
    refine ⟨_, rfl, List.rel_filterMap (fun group group' pairs => ?_)
      (forall₂_groups (agree 0) keys)⟩
    cases pairs with
    | nil => exact .none
    | cons pair _ => exact .some (pair.restrict vars)
  | order keys top =>
    obtain ⟨rows, values, rfl⟩ := emits
    refine ⟨_, ⟨rows, values.agree (agree 0) (unreadExprs), rfl⟩, ?_⟩
    have sorted := forall₂_mergeSort (forall₂_labelled (agree 0) rows)
      (p := fun a b => precedes I.ascends (keys.map (·.1)) a.2 b.2)
      (q := fun a b => precedes I.ascends (keys.map (·.1)) a.2 b.2)
      fun _ _ _ _ first second => by rw [first.2, second.2]
    have tuples := forall₂_map_fst sorted
    rw [tuples.length_eq]
    exact List.forall₂_take _ tuples
  | limit count offset =>
    cases emits
    exact ⟨_, rfl, List.forall₂_take _ (List.forall₂_drop _ (agree 0))⟩
  | unnest v e position =>
    obtain ⟨rows, values, rfl⟩ := emits
    refine ⟨_, ⟨rows, evaluates_agree (agree 0) values (unreadExpr _ List.mem_cons_self), rfl⟩,
      List.rel_flatMap (forall₂_labelled (agree 0) rows) fun a b pair => ?_⟩
    rw [pair.2, List.forall₂_map_left_iff, List.forall₂_map_right_iff, List.forall₂_same]
    exact fun item _ => pair.1.extend _ _
  | exchange | replicate | write | insertDelete | sink =>
    cases emits
    exact ⟨_, rfl, agree 0⟩
  | unionAll pairs =>
    cases emits
    have read : ∀ c ∈ pairs, c.left ∉ dropped ∧ c.right ∉ dropped := fun c member =>
      ⟨unread _ (mem_distinct.mpr (List.mem_flatMap.mpr ⟨c, member, by simp⟩)),
        unread _ (mem_distinct.mpr (List.mem_flatMap.mpr ⟨c, member, by simp⟩))⟩
    refine ⟨_, rfl, List.rel_append (List.rel_map (fun t u pair => ?_) (agree 0))
      (List.rel_map (fun t u pair => ?_) (agree 1))⟩
    · rw [unionTuple_agree pair fun c member => (read c member).1]
      exact .refl _ _
    · rw [unionTuple_agree pair fun c member => (read c member).2]
      exact .refl _ _
  | script command read written =>
    obtain ⟨rows, made, rfl⟩ := emits
    have same : (ins 0).map (fun t => t.restrict read) = (ins' 0).map fun t => t.restrict read := by
      rw [← List.forall₂_eq_eq_eq, List.forall₂_map_left_iff, List.forall₂_map_right_iff]
      refine (agree 0).imp fun t u pair => ?_
      exact (Tuple.Within.restrict t read).eq_of_agreeOn (.restrict u read) fun v member => by
        rw [Tuple.restrict_of_mem member, Tuple.restrict_of_mem member, pair v (unread v member)]
    exact ⟨_, ⟨rows, same ▸ made, rfl⟩, List.forall₂_same.mpr fun t _ => .refl _ t⟩

end Operator

/-! ## Nodes of two plans -/

namespace Plan

variable {plan plan' : Plan} {I : Interpretation} {dropped : List Var} {frames frames' : Frames}
  {n : NodeId} {ts : List Tuple}

/-- Whether a node of one plan stands for a node of another: it has its columns, and for each of its
    runs one with the same tuples, but for the dropped variables. -/
structure Mirrors (plan plan' : Plan) (I : Interpretation) (dropped : List Var)
    (frames frames' : Frames) (n n' : NodeId) : Prop where
  columns : ∀ v ∉ dropped, v ∈ plan.columns n ↔ v ∈ plan'.columns n'
  runs : ∀ us, plan.Yields I frames n us → ∃ us', plan'.Yields I frames' n' us' ∧
    List.Forall₂ (Tuple.AgreeBut dropped) us us'

/-- Whether the input of an owner supplies these tuples. -/
def Supplies (plan : Plan) (I : Interpretation) (frames : Frames) (owner : NodeId)
    (us : List Tuple) : Prop :=
  ∃ input ts, (plan.inputs owner)[0]? = some input ∧ plan.Yields I frames input ts ∧
    ∀ t ∈ us, t ∈ ts

theorem combine_update {inner : NodeId → Tuple} {ids : List NodeId} {t : Tuple} {v : Var}
    (other : v ∉ plan.columns n) :
    plan.combine (Function.update inner n t) ids v = plan.combine inner ids v := by
  induction ids with
  | nil => rfl
  | cons id ids ih =>
    unfold combine Tuple.join
    split
    · rename_i member
      have different : id ≠ n := fun same => other (same ▸ member)
      rw [Function.update_of_ne different]
    · exact ih

/-- Tuples that agree are combined to tuples that agree. If a node is listed twice, the first tuple
    counts. -/
theorem combine_agree {Q : NodeId → Tuple → Prop} {inner : NodeId → Tuple} {ids ids' : List NodeId}
    (each : List.Forall₂ (fun id id' => (∀ v ∉ dropped, v ∈ plan.columns id ↔ v ∈ plan'.columns id') ∧
      ∃ t', Q id' t' ∧ (inner id).AgreeBut dropped t') ids ids') :
    ∃ inner' : NodeId → Tuple, (∀ id' ∈ ids', Q id' (inner' id')) ∧
      (plan.combine inner ids).AgreeBut dropped (plan'.combine inner' ids') := by
  induction each with
  | nil =>
    have none : ∀ id' ∈ [], Q id' Tuple.empty := fun _ impossible => by cases impossible
    exact ⟨fun _ => Tuple.empty, none, .refl _ _⟩
  | @cons id id' ids ids' first _ ih =>
    obtain ⟨columns, t', holds, agree⟩ := first
    obtain ⟨inner', hold, rest⟩ := ih
    refine ⟨Function.update inner' id' t', fun other member => ?_, fun v kept => ?_⟩
    · by_cases same : other = id'
      · rw [same, Function.update_self]
        exact holds
      · rw [Function.update_of_ne same]
        exact hold other ((List.mem_cons.mp member).resolve_left same)
    · unfold combine Tuple.join
      rw [Function.update_self]
      by_cases member : v ∈ plan.columns id
      · rw [if_pos member, if_pos ((columns v kept).mp member), agree v kept]
      · have absent : v ∉ plan'.columns id' := fun listed => member ((columns v kept).mpr listed)
        rw [if_neg member, if_neg absent, combine_update absent]
        exact rest v kept

section Same

variable (local_ : I.FoldsLocally) (unread : ∀ v ∈ (plan.operator n).used, v ∉ dropped)
  (inputs : List.Forall₂ (plan.Mirrors plan' I dropped frames frames') (plan.inputs n)
    (plan'.inputs n))

include inputs

theorem inputColumns_agree (k : Nat) (v : Var) (kept : v ∉ dropped) :
    v ∈ plan.inputColumns n k ↔ v ∈ plan'.inputColumns n k := by
  cases found : (plan.inputs n)[k]? with
  | some c =>
    obtain ⟨c', found', mirrors⟩ := getElem?_replaced inputs found
    rw [inputColumns_of_getElem? found, inputColumns_of_getElem? found']
    exact mirrors.columns v kept
  | none =>
    have missing : (plan'.inputs n)[k]? = none := by
      rw [List.getElem?_eq_none_iff] at found ⊢
      exact inputs.length_eq ▸ found
    unfold inputColumns
    rw [found, missing]
    exact Iff.rfl

include local_ unread

theorem agree_plain {ins : Nat → List Tuple}
    (same : plan'.operator n = plan.operator n)
    (runs : ∀ k c, (plan.inputs n)[k]? = some c → plan.Yields I frames c (ins k))
    (missing : ∀ k, (plan.inputs n)[k]? = none → ins k = [])
    (emits : (plan.operator n).Emits I (plan.inputColumns n) ins ts) :
    ∃ ts', plan'.Yields I frames' n ts' ∧ List.Forall₂ (Tuple.AgreeBut dropped) ts ts' := by
  have each : ∀ k, ∃ us', (∀ c', (plan'.inputs n)[k]? = some c' → plan'.Yields I frames' c' us') ∧
      ((plan'.inputs n)[k]? = none → us' = []) ∧
      List.Forall₂ (Tuple.AgreeBut dropped) (ins k) us' := by
    intro k
    cases found : (plan.inputs n)[k]? with
    | some c =>
      obtain ⟨c', found', mirrors⟩ := getElem?_replaced inputs found
      obtain ⟨us', run, agree⟩ := mirrors.runs _ (runs k c found)
      refine ⟨us', fun c'' isInput => ?_, fun none => ?_, agree⟩
      · cases found'.symm.trans isInput
        exact run
      · cases found'.symm.trans none
    | none =>
      refine ⟨[], fun c' isInput => ?_, fun _ => rfl, by rw [missing k found]; exact .nil⟩
      obtain ⟨c, isInput, _⟩ := getElem?_replacing inputs isInput
      cases found.symm.trans isInput
  choose ins' runs' missing' agree using each
  obtain ⟨ts', emits', alike⟩ := emits.agree local_ agree (inputColumns_agree inputs) unread
  exact ⟨ts', .plain runs' missing' (by rw [same]; exact emits'), alike⟩

variable (roots : ∀ us us', List.Forall₂ (Tuple.AgreeBut dropped) us us' →
  plan'.Supplies I frames' n us' → List.Forall₂
    (plan.Mirrors plan' I dropped (frames.enter n us) (frames'.enter n us')) (plan.nestedRoots n)
    (plan'.nestedRoots n))

include roots

omit local_ unread inputs in
/-- The nested plans of a node, run on tuples that agree. -/
theorem agree_nested {us us' : List Tuple} {inner : NodeId → Tuple}
    (agree : List.Forall₂ (Tuple.AgreeBut dropped) us us') (supplied : plan'.Supplies I frames' n us')
    (yielded : ∀ root ∈ plan.nestedRoots n, plan.Yields I (frames.enter n us) root [inner root]) :
    ∃ inner' : NodeId → Tuple, (∀ root ∈ plan'.nestedRoots n,
        plan'.Yields I (frames'.enter n us') root [inner' root]) ∧
      (plan.combine inner (plan.nestedRoots n)).AgreeBut dropped
        (plan'.combine inner' (plan'.nestedRoots n)) := by
  refine combine_agree (Q := fun root t => plan'.Yields I (frames'.enter n us') root [t])
    (forall₂_of_mem (roots us us' agree supplied) fun root isRoot root' _ mirrors => ?_)
  obtain ⟨ts', run, alike⟩ := mirrors.runs _ (yielded root isRoot)
  cases alike with
  | cons first rest =>
    cases rest
    exact ⟨mirrors.columns, _, run, first⟩

omit local_ unread inputs in
/-- The nested plans of a node, run once for each item of a list. -/
theorem agree_runs {α : Type} {R : α → α → Prop} {items items' : List α} {tuples : α → List Tuple}
    {inner : Nat → NodeId → Tuple} (pairs : List.Forall₂ R items items')
    (agree : ∀ a b, R a b → List.Forall₂ (Tuple.AgreeBut dropped) (tuples a) (tuples b))
    (supplied : ∀ b ∈ items', plan'.Supplies I frames' n (tuples b))
    (yielded : ∀ i a, items[i]? = some a → ∀ root ∈ plan.nestedRoots n,
      plan.Yields I (frames.enter n (tuples a)) root [inner i root]) :
    ∃ inner' : Nat → NodeId → Tuple, (∀ i b, items'[i]? = some b → ∀ root ∈ plan'.nestedRoots n,
        plan'.Yields I (frames'.enter n (tuples b)) root [inner' i root]) ∧
      ∀ i b, items'[i]? = some b → (plan.combine (inner i) (plan.nestedRoots n)).AgreeBut dropped
        (plan'.combine (inner' i) (plan'.nestedRoots n)) := by
  have each : ∀ i, ∃ inner' : NodeId → Tuple, ∀ b, items'[i]? = some b →
      (∀ root ∈ plan'.nestedRoots n,
        plan'.Yields I (frames'.enter n (tuples b)) root [inner' root]) ∧
      (plan.combine (inner i) (plan.nestedRoots n)).AgreeBut dropped
        (plan'.combine inner' (plan'.nestedRoots n)) := by
    intro i
    cases found' : items'[i]? with
    | none => exact ⟨fun _ => Tuple.empty, fun _ impossible => by cases impossible⟩
    | some b =>
      obtain ⟨a, found, pair⟩ := getElem?_replacing pairs found'
      obtain ⟨inner', runs, alike⟩ := agree_nested roots (agree a b pair)
        (supplied b (List.mem_of_getElem? found')) (yielded i a found)
      refine ⟨inner', fun b' isItem => ?_⟩
      cases isItem
      exact ⟨runs, alike⟩
  choose inner' both using each
  exact ⟨inner', fun i b found => (both i b found).1, fun i b found => (both i b found).2⟩

omit local_ in
theorem agree_groupBy {input : NodeId} {keys decor : List (Var × Expr)} {nested nested' : NestedPlans}
    {us : List Tuple} {rows : List (List Scalar)} {grouped : List (List (Tuple × List Scalar))}
    {inner : Nat → NodeId → Tuple} (operator : plan.operator n = .groupBy keys decor nested)
    (operator' : plan'.operator n = .groupBy keys decor nested')
    (source : (plan.inputs n)[0]? = some input) (tuples : plan.Yields I frames input us)
    (values : Evaluated I ((keys ++ decor).map (·.2)) us rows)
    (isGrouped : grouped = groups (fun entry => entry.2.take keys.length) (us.zip rows))
    (decorations : ∀ group ∈ grouped, ∀ a ∈ group, ∀ b ∈ group, a.2 = b.2)
    (yielded : ∀ i group, grouped[i]? = some group → ∀ root ∈ plan.nestedRoots n,
      plan.Yields I (frames.enter n (group.map (·.1))) root [inner i root]) :
    ∃ ts', plan'.Yields I frames' n ts' ∧ List.Forall₂ (Tuple.AgreeBut dropped)
      (grouped.mapIdx fun i group => (plan.combine (inner i) (plan.nestedRoots n)).extend
        ((keys ++ decor).map (·.1)) ((group.head?.map (·.2)).getD [])) ts' := by
  obtain ⟨input', source', mirrors⟩ := getElem?_replaced inputs source
  obtain ⟨us', tuples', agree⟩ := mirrors.runs us tuples
  have unreadHere : ∀ v ∈ Expr.occurrencesList ((keys ++ decor).map (·.2)), v ∉ dropped :=
    fun v occurs => unread v (by rw [operator]; exact mem_distinct.mpr occurs)
  let grouped' := groups (fun entry : Tuple × List Scalar => entry.2.take keys.length) (us'.zip rows)
  have pairs : List.Forall₂ (List.Forall₂ fun a b => a.1.AgreeBut dropped b.1 ∧ a.2 = b.2) grouped
      grouped' := by
    subst isGrouped
    exact forall₂_groups (forall₂_labelled agree rows) fun a b pair => by rw [pair.2]
  have decorations' : ∀ group ∈ grouped', ∀ a ∈ group, ∀ b ∈ group, a.2 = b.2 := by
    intro group' isGroup a inA b inB
    obtain ⟨group, isGroup, pair⟩ := exists_replaced pairs isGroup
    obtain ⟨a', inA', sameA⟩ := exists_replaced pair inA
    obtain ⟨b', inB', sameB⟩ := exists_replaced pair inB
    rw [← sameA.2, ← sameB.2, decorations group isGroup a' inA' b' inB']
  have supplied : ∀ group ∈ grouped', plan'.Supplies I frames' n (group.map (·.1)) := by
    refine fun group isGroup => ⟨input', us', source', tuples', fun t member => ?_⟩
    obtain ⟨⟨t, row⟩, inside, rfl⟩ := List.mem_map.mp member
    exact (List.of_mem_zip (mem_of_mem_group isGroup inside)).1
  obtain ⟨inner', yielded', combined⟩ :=
    agree_runs roots pairs (fun _ _ => forall₂_map_fst) supplied yielded
  refine ⟨_, .groupBy operator' source' tuples' (values.agree agree unreadHere) rfl decorations'
    yielded', ?_⟩
  refine forall₂_mapIdx pairs fun i group group' found' pair => ?_
  have head : group.head?.map (·.2) = group'.head?.map (·.2) := by
    cases pair with
    | nil => rfl
    | cons first _ => exact congrArg some first.2
  rw [head]
  exact (combined i group' found').extend _ _

omit local_ unread in
theorem agree_subplan {input : NodeId} {nested' : NestedPlans} {us : List Tuple}
    {inner : Nat → NodeId → Tuple} (operator' : plan'.operator n = .subplan nested')
    (source : (plan.inputs n)[0]? = some input) (tuples : plan.Yields I frames input us)
    (yielded : ∀ i t, us[i]? = some t → ∀ root ∈ plan.nestedRoots n,
      plan.Yields I (frames.enter n [t]) root [inner i root]) :
    ∃ ts', plan'.Yields I frames' n ts' ∧ List.Forall₂ (Tuple.AgreeBut dropped)
      (us.mapIdx fun i t => Tuple.join (plan.columns input) t
        (plan.combine (inner i) (plan.nestedRoots n))) ts' := by
  obtain ⟨input', source', mirrors⟩ := getElem?_replaced inputs source
  obtain ⟨us', tuples', agree⟩ := mirrors.runs us tuples
  have supplied : ∀ t ∈ us', plan'.Supplies I frames' n [t] := fun t member =>
    ⟨input', us', source', tuples', fun u single => List.mem_singleton.mp single ▸ member⟩
  obtain ⟨inner', yielded', combined⟩ :=
    agree_runs roots agree (fun _ _ pair => .cons pair .nil) supplied yielded
  refine ⟨_, .subplan operator' source' tuples' yielded', ?_⟩
  exact forall₂_mapIdx agree fun i t t' found' pair =>
    .join mirrors.columns pair (combined i t' found')

/-- A node with the same operator in two plans, up to its nested roots, yields tuples that agree, if this
    holds of its inputs and of its nested roots. -/
theorem Yields.agree (run : plan.Yields I frames n ts)
    (framed : ∀ owner, plan.operator n = .nestedSource owner →
      Option.Rel (List.Forall₂ (Tuple.AgreeBut dropped)) (frames owner) (frames' owner))
    (same : ∃ nested, plan'.operator n = (plan.operator n).mapNested fun _ => nested) :
    ∃ ts', plan'.Yields I frames' n ts' ∧ List.Forall₂ (Tuple.AgreeBut dropped) ts ts' := by
  obtain ⟨nested', operator'⟩ := same
  cases run with
  | @nestedSource _ _ owner _ operator frame =>
    rw [operator] at operator'
    have agree := framed owner operator
    rw [frame] at agree
    cases found : frames' owner with
    | none => rw [found] at agree; cases agree
    | some ts' =>
      rw [found] at agree
      cases agree with
      | some agree => exact ⟨ts', .nestedSource operator' found, agree⟩
  | plain runs missing emits =>
    refine agree_plain local_ unread inputs ?_ runs missing emits
    rw [operator']
    cases operator : plan.operator n with
    | groupBy | subplan => rw [operator] at emits; exact emits.elim
    | _ => rfl
  | groupBy operator source tuples values grouped decorations yielded =>
    rw [operator] at operator'
    exact agree_groupBy unread inputs roots operator operator' source tuples values grouped
      decorations yielded
  | subplan operator source tuples yielded =>
    rw [operator] at operator'
    exact agree_subplan inputs roots operator' source tuples yielded

end Same

end Plan

end QueryOptimizer
