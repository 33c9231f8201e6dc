import Mathlib
import QueryOptimizer.Proofs.Plan.Pruned
import QueryOptimizer.Proofs.Relational.Agreement
import QueryOptimizer.Proofs.Relational.Filled

/-! # Results of plans without unused assignments

If assignments are dropped whose variables nobody reads, then every node that is left yields what it
yielded before, but for these variables. For each run of the whole plan there is one of the pruned
plan, and, since every expression has a value, for each run of the pruned plan there is one of the
whole plan.
-/

namespace QueryOptimizer

/-! ## Assignments -/

namespace Operator

variable {I : Interpretation} {dropped : List Var} {entries : List (Var × Expr)}
  {keeps : Var × Expr → Bool} {t t' u u' : Tuple}

theorem lookup_zip_cons {v w : Var} {x : Scalar} {vs : List Var} {xs : List Scalar}
    (other : v ≠ w) : ((w :: vs).zip (x :: xs)).lookup v = (vs.zip xs).lookup v := by
  rw [List.zip_cons_cons, List.lookup_cons, beq_false_of_ne other]

/-- The kept entries have the values that they have among all entries. -/
theorem evaluateTo_filter {row : List Scalar}
    (gone : ∀ entry ∈ entries, keeps entry = false → entry.1 ∈ dropped)
    (values : Expr.EvaluateTo I t (entries.map (·.2)) row) :
    ∃ row', Expr.EvaluateTo I t ((entries.filter keeps).map (·.2)) row' ∧ ∀ v ∉ dropped,
      ((entries.map (·.1)).zip row).lookup v =
        (((entries.filter keeps).map (·.1)).zip row').lookup v := by
  induction entries generalizing row with
  | nil => exact ⟨[], rfl, fun _ _ => rfl⟩
  | cons entry entries ih =>
    obtain ⟨w, e⟩ := entry
    obtain ⟨x, xs, rfl, first, rest⟩ := values
    obtain ⟨row', values', same⟩ := ih (fun entry member => gone entry (.tail _ member)) rest
    by_cases kept : keeps (w, e) = true
    · rw [List.filter_cons_of_pos kept]
      refine ⟨x :: row', ⟨x, row', rfl, first, values'⟩, fun v here => ?_⟩
      simp only [List.map_cons, List.zip_cons_cons, List.lookup_cons, same v here]
    · rw [List.filter_cons_of_neg kept]
      refine ⟨row', values', fun v here => ?_⟩
      have other : v ≠ w := by
        rintro rfl
        exact here (gone _ List.mem_cons_self (Bool.not_eq_true _ ▸ kept))
      rw [← same v here]
      exact lookup_zip_cons other

/-- If all entries have values, then values of the kept entries are among values of all entries. -/
theorem evaluateTo_of_filter {row' : List Scalar} (lawful : I.Lawful)
    (gone : ∀ entry ∈ entries, keeps entry = false → entry.1 ∈ dropped)
    (fills : t.Fills (Expr.occurrencesList (entries.map (·.2))))
    (values : Expr.EvaluateTo I t ((entries.filter keeps).map (·.2)) row') :
    ∃ row, Expr.EvaluateTo I t (entries.map (·.2)) row ∧ ∀ v ∉ dropped,
      ((entries.map (·.1)).zip row).lookup v =
        (((entries.filter keeps).map (·.1)).zip row').lookup v := by
  induction entries generalizing row' with
  | nil => exact ⟨[], rfl, fun _ _ => by rw [values]; rfl⟩
  | cons entry entries ih =>
    obtain ⟨w, e⟩ := entry
    have goneRest := fun entry member => gone entry (.tail _ member)
    have fillsRest := fills.mono fun v occurs => List.mem_append_right _ occurs
    by_cases kept : keeps (w, e) = true
    · rw [List.filter_cons_of_pos kept] at values ⊢
      obtain ⟨x, xs, rfl, first, rest⟩ := values
      obtain ⟨row, all, same⟩ := ih goneRest fillsRest rest
      refine ⟨x :: row, ⟨x, row, rfl, first, all⟩, fun v here => ?_⟩
      simp only [List.map_cons, List.zip_cons_cons, List.lookup_cons, same v here]
    · rw [List.filter_cons_of_neg kept] at values ⊢
      obtain ⟨row, all, same⟩ := ih goneRest fillsRest values
      obtain ⟨x, first⟩ := Expr.Evaluates.exists lawful
        (fills.mono fun v occurs => List.mem_append_left _ occurs)
      refine ⟨x :: row, ⟨x, row, rfl, first, all⟩, fun v here => ?_⟩
      have other : v ≠ w := by
        rintro rfl
        exact here (gone _ List.mem_cons_self (Bool.not_eq_true _ ▸ kept))
      rw [← same v here]
      exact lookup_zip_cons other

section Kept

variable (gone : ∀ entry ∈ entries, keeps entry = false → entry.1 ∈ dropped)
  (unread : ∀ v ∈ Expr.occurrencesList ((entries.filter keeps).map (·.2)), v ∉ dropped)
  (alike : t.AgreeBut dropped t')

include gone unread alike

theorem Assigns.filter (assigns : Assigns I (entries.map (·.1)) (entries.map (·.2)) t u) :
    ∃ u', Assigns I ((entries.filter keeps).map (·.1)) ((entries.filter keeps).map (·.2)) t' u' ∧
      u.AgreeBut dropped u' := by
  obtain ⟨row, values, rfl⟩ := assigns
  obtain ⟨row', values', same⟩ := evaluateTo_filter gone values
  refine ⟨_, ⟨row', values'.congr (alike.on unread), rfl⟩, fun v here => ?_⟩
  unfold Tuple.extend
  rw [same v here, alike v here]

theorem Assigns.of_filter (lawful : I.Lawful)
    (fills : t.Fills (Expr.occurrencesList (entries.map (·.2))))
    (assigns : Assigns I ((entries.filter keeps).map (·.1)) ((entries.filter keeps).map (·.2)) t' u') :
    ∃ u, Assigns I (entries.map (·.1)) (entries.map (·.2)) t u ∧ u'.AgreeBut dropped u := by
  obtain ⟨row', values', rfl⟩ := assigns
  obtain ⟨row, values, same⟩ :=
    evaluateTo_of_filter lawful gone fills (values'.congr (alike.symm.on unread))
  refine ⟨_, ⟨row, values, rfl⟩, fun v here => ?_⟩
  unfold Tuple.extend
  rw [same v here, alike v here]

end Kept

/-- An assignment of dropped variables changes nothing else. -/
theorem Assigns.agreeBut {vars : List Var} {exprs : List Expr} (assigns : Assigns I vars exprs t u)
    (gone : ∀ v ∈ vars, v ∈ dropped) : u.AgreeBut dropped t := by
  obtain ⟨row, _, rfl⟩ := assigns
  intro v here
  exact Tuple.extend_of_not_mem fun listed => here (gone v listed)

end Operator

/-! ## Plans -/

namespace Plan

variable {start plan : Plan} {I : Interpretation} {dropped : List Var} {frames frames' : Frames}
  {m n x : NodeId} {us us' ts : List Tuple}

/-- Whether the nested plans of reachable owners run on tuples that agree but for the dropped
    variables. -/
def FramesAgree (plan : Plan) (dropped : List Var) (frames frames' : Frames) : Prop :=
  ∀ owner, plan.Reaches owner →
    Option.Rel (List.Forall₂ (Tuple.AgreeBut dropped)) (frames owner) (frames' owner)

theorem FramesAgree.enter (framed : plan.FramesAgree dropped frames frames') (n : NodeId)
    (alike : List.Forall₂ (Tuple.AgreeBut dropped) us us') :
    plan.FramesAgree dropped (frames.enter n us) (frames'.enter n us') := by
  intro owner reached
  unfold Frames.enter
  split
  · exact .some alike
  · exact framed owner reached

theorem FramesAgree.symm (framed : plan.FramesAgree dropped frames frames') :
    plan.FramesAgree dropped frames' frames := by
  intro owner reached
  have related := framed owner reached
  generalize frames owner = before, frames' owner = after at related
  cases related with
  | none => exact .none
  | some alike => exact .some (alike.flip.imp fun _ _ pair => Tuple.AgreeBut.symm pair)

/-- The frames with the columns that a plan has for them. -/
def trim (plan : Plan) (frames : Frames) : Frames := fun owner =>
  (frames owner).map (List.map fun t => t.restrict (plan.inputColumns owner 0))

theorem framesWithin_trim (plan : Plan) (frames : Frames) : plan.FramesWithin (plan.trim frames) := by
  intro owner ts frame t member
  obtain ⟨us, _, rfl⟩ := Option.map_eq_some_iff.mp frame
  obtain ⟨u, _, rfl⟩ := List.mem_map.mp member
  exact .restrict u _

/-! ## One assignment -/

section Assign

variable {entries : List (Var × Expr)} {keeps : Var × Expr → Bool} {x' : NodeId}
  (assigns : start.operator n = .assign (entries.map (·.1)) (entries.map (·.2)))
  (filtered : plan.operator n =
    .assign ((entries.filter keeps).map (·.1)) ((entries.filter keeps).map (·.2)))
  (gone : ∀ entry ∈ entries, keeps entry = false → entry.1 ∈ dropped)
  (unread : ∀ v ∈ (plan.operator n).used, v ∉ dropped) (inputs : start.inputs n = [x])
  (inputs' : plan.inputs n = [x'])

include assigns filtered gone unread inputs inputs'

/-- An assignment of which a part is left. -/
theorem Mirrors.filter (below : start.Mirrors plan I dropped frames frames' x x')
    (run : start.Yields I frames n ts) :
    ∃ ts', plan.Yields I frames' n ts' ∧ List.Forall₂ (Tuple.AgreeBut dropped) ts ts' := by
  obtain ⟨us, runX, turns⟩ := (yields_single_iff assigns trivial rfl inputs).mp run
  obtain ⟨us', runX', alike⟩ := below.runs us runX
  rw [filtered] at unread
  obtain ⟨ts', turns', alike'⟩ := exists_partners alike (Operator.turns_assign.mp turns)
    fun t t' u pair assigns =>
      assigns.filter gone (fun v occurs => unread v (mem_distinct.mpr occurs)) pair
  exact ⟨ts', (yields_single_iff filtered trivial rfl inputs').mpr
    ⟨us', runX', Operator.turns_assign.mpr turns'⟩, alike'⟩

theorem Mirrors.of_filter (lawful : I.Lawful) (below : plan.Mirrors start I dropped frames' frames x' x)
    (fills : ∀ us, start.Yields I frames x us →
      ∀ t ∈ us, t.Fills (Expr.occurrencesList (entries.map (·.2))))
    (run : plan.Yields I frames' n ts) :
    ∃ ts', start.Yields I frames n ts' ∧ List.Forall₂ (Tuple.AgreeBut dropped) ts ts' := by
  obtain ⟨us', runX', turns⟩ := (yields_single_iff filtered trivial rfl inputs').mp run
  obtain ⟨us, runX, alike⟩ := below.runs us' runX'
  have pairs := forall₂_of_mem alike fun t' _ t member pair =>
    And.intro pair.symm (fills us runX t member)
  rw [filtered] at unread
  obtain ⟨ts', turns', alike'⟩ := exists_partners pairs (Operator.turns_assign.mp turns)
    fun t' t u' pair assigns =>
      assigns.of_filter gone (fun v occurs => unread v (mem_distinct.mpr occurs)) pair.1 lawful pair.2
  exact ⟨ts', (yields_single_iff assigns trivial rfl inputs).mpr
    ⟨us, runX, Operator.turns_assign.mpr turns'⟩, alike'⟩

end Assign

section Pass

variable {vars : List Var} {exprs : List Expr} (operator : start.operator m = .assign vars exprs)
  (gone : ∀ v ∈ vars, v ∈ dropped) (inputs : start.inputs m = [x])

include operator gone inputs

/-- An assignment that is passed over. -/
theorem Mirrors.pass (below : start.Mirrors plan I dropped frames frames' x n)
    (run : start.Yields I frames m ts) :
    ∃ ts', plan.Yields I frames' n ts' ∧ List.Forall₂ (Tuple.AgreeBut dropped) ts ts' := by
  obtain ⟨us, runX, turns⟩ := (yields_single_iff operator trivial rfl inputs).mp run
  obtain ⟨ts', run', alike⟩ := below.runs us runX
  refine ⟨ts', run', same_results (Operator.turns_assign.mp turns) alike ?_⟩
  exact fun t u t' assigns pair => (assigns.agreeBut gone).trans pair

theorem Mirrors.of_pass (lawful : I.Lawful) (below : plan.Mirrors start I dropped frames' frames n x)
    (fills : ∀ us, start.Yields I frames x us → ∀ t ∈ us, t.Fills (Expr.occurrencesList exprs))
    (run : plan.Yields I frames' n ts) :
    ∃ ts', start.Yields I frames m ts' ∧ List.Forall₂ (Tuple.AgreeBut dropped) ts ts' := by
  obtain ⟨us, runX, alike⟩ := below.runs ts run
  have pairs := forall₂_of_mem alike fun t' _ t member pair => And.intro pair (fills us runX t member)
  have itself : List.Forall₂ Eq ts ts := List.forall₂_same.mpr fun _ _ => rfl
  obtain ⟨ts', turns, alike'⟩ := exists_partners pairs itself fun t' t u' pair same => by
    obtain ⟨row, values⟩ := Expr.EvaluateTo.exists lawful pair.2
    have assigns : Operator.Assigns I vars exprs t (t.extend vars row) := ⟨row, values, rfl⟩
    exact ⟨_, assigns, same ▸ pair.1.trans (assigns.agreeBut gone).symm⟩
  exact ⟨ts', (yields_single_iff operator trivial rfl inputs).mpr
    ⟨us, runX, Operator.turns_assign.mpr turns⟩, alike'⟩

end Pass

/-- The expressions of an assignment have values in the tuples of its input. -/
theorem fills_assign (wellFormed : plan.WellFormed) (current : plan.SchemasCurrent)
    (scope : plan.InScope)
    (fits : ∀ n, plan.Reaches n → (plan.operator n).Fits I (plan.inputColumns n))
    (filled : plan.FramesFilled frames) (reached : plan.Reaches n) {vars : List Var}
    {exprs : List Expr} (operator : plan.operator n = .assign vars exprs)
    (inputs : plan.inputs n = [x]) (us : List Tuple) (run : plan.Yields I frames x us) :
    ∀ t ∈ us, t.Fills (Expr.occurrencesList exprs) := by
  intro t member
  have reachedX : plan.Reaches x := reached.input (inputs ▸ List.mem_singleton_self _)
  refine (run.fills wellFormed current scope fits reachedX filled t member).mono fun v occurs => ?_
  obtain ⟨c, isInput, inside⟩ := scope n reached
    (fun nested shape => by cases operator.symm.trans shape) v
    (by rw [operator]; exact mem_distinct.mpr occurs)
  rw [inputs] at isInput
  exact List.mem_singleton.mp isInput ▸ inside

/-! ## Pruned plans -/

namespace Pruned

variable (pruned : start.Pruned dropped plan) (wellFormed : start.WellFormed)
  (current : start.SchemasCurrent) (wellFormed' : plan.WellFormed) (current' : plan.SchemasCurrent)
  (unread : ∀ v ∈ dropped, ∀ n, plan.Reaches n → v ∉ (plan.operator n).used)
  (local_ : I.FoldsLocally)

include pruned

/-- A node that is left and has one input had one before. -/
theorem single_inputs (wellFormed : start.WellFormed) (reached : plan.Reaches n)
    (arity : (start.operator n).arity = 1) :
    ∃ x x', start.inputs n = [x] ∧ plan.inputs n = [x'] ∧ start.LeadsTo dropped x x' := by
  obtain ⟨x, single⟩ := List.length_eq_one_iff.mp
    ((wellFormed.arity n (pruned.reaches reached)).trans arity)
  have leads := pruned.inputs n reached
  rw [single] at leads
  obtain ⟨x', _, first, last, inputs'⟩ := List.forall₂_cons_left_iff.mp leads
  rw [List.forall₂_nil_left_iff.mp last] at inputs'
  exact ⟨x, x', single, inputs', first⟩

variable (scope : start.InScope) (lawful : I.Lawful)
  (fits : ∀ n, start.Reaches n → (start.operator n).Fits I (start.inputColumns n))

include wellFormed current wellFormed' current' unread local_ scope lawful fits

/-- For each run of a node there is one of what is left of it. For each run of what is left there is one
    of the node, if its frames have values for all columns. -/
theorem mirrors (reached : start.Reaches m) (leads : start.LeadsTo dropped m n)
    (reached' : plan.Reaches n) (framed : plan.FramesAgree dropped frames frames') :
    start.Mirrors plan I dropped frames frames' m n ∧
      (start.FramesFilled frames → plan.Mirrors start I dropped frames' frames n m) := by
  -- The rank is one of the whole plan, where a node that is passed over is above its input.
  obtain ⟨rank, falls⟩ := wellFormed.acyclic
  induction h : rank m using Nat.strong_induction_on generalizing m n frames frames' with
  | _ _ ih =>
    subst h
    have below : ∀ {c c' frames frames'}, c ∈ start.children m → plan.Reaches c' →
        start.LeadsTo dropped c c' → plan.FramesAgree dropped frames frames' →
        start.Mirrors plan I dropped frames frames' c c' ∧
          (start.FramesFilled frames → plan.Mirrors start I dropped frames' frames c' c) :=
      fun isChild reachedC leads framed => ih _ (falls m reached _ (mem_sources_of_child isChild))
        (reached.child isChild) leads reachedC framed rfl
    have only : ∀ {c}, start.inputs m = [c] → c ∈ start.children m := fun inputs =>
      List.mem_append_left _ (inputs ▸ List.mem_singleton_self _)
    have fewer := pruned.columns current wellFormed' current' reached leads reached'
    suffices runs : (∀ ts, start.Yields I frames m ts → ∃ ts', plan.Yields I frames' n ts' ∧
        List.Forall₂ (Tuple.AgreeBut dropped) ts ts') ∧ (start.FramesFilled frames → ∀ ts,
        plan.Yields I frames' n ts → ∃ ts', start.Yields I frames m ts' ∧
          List.Forall₂ (Tuple.AgreeBut dropped) ts ts') from
      ⟨⟨fun v kept => (fewer.mem_iff kept).symm, runs.1⟩,
        fun filled => ⟨fun v kept => fewer.mem_iff kept, runs.2 filled⟩⟩
    rcases leads.cases_head with rfl | ⟨c, ⟨vars, exprs, operator, gone, inputs⟩, leads⟩
    · have unreadHere : ∀ v ∈ (plan.operator m).used, v ∉ dropped := fun v read isDropped =>
        unread v isDropped m reached' read
      rcases pruned.operator m reached' with ⟨nested, same⟩ | ⟨entries, keeps, assigns, filtered, gone⟩
      · have inputs := forall₂_of_mem (pruned.inputs m reached') fun c isInput c' isInput' leads =>
          below (List.mem_append_left _ isInput) (reached'.input isInput') leads framed
        have roots := fun {us us'} (alike : List.Forall₂ (Tuple.AgreeBut dropped) us us') =>
          forall₂_of_mem (pruned.nestedRoots m reached') fun c isRoot c' isRoot' leads =>
            below (List.mem_append_right _ isRoot) (reached'.nestedRoot isRoot') leads
              (framed.enter m alike)
        have owners : ∀ {owner}, plan.operator m = .nestedSource owner → plan.Reaches owner :=
          fun operator => (wellFormed'.reaches_of_reads reached' (.source operator)).1
        constructor
        · intro ts run
          have unreadHere := unreadHere
          rw [same, Operator.used_mapNested] at unreadHere
          exact run.agree local_ unreadHere (inputs.imp fun _ _ => And.left)
            (fun us us' alike _ => (roots alike).imp fun _ _ => And.left) (fun owner operator =>
              framed owner (owners ((pruned.operator m reached').nestedSource_iff.mpr operator)))
            ⟨nested, same⟩
        · intro filled us run
          refine run.agree local_ unreadHere (inputs.imp fun _ _ pair => pair.2 filled).flip
            (fun us us' alike supplied => ?_) (fun owner operator =>
              framed.symm owner (owners operator)) ⟨(start.operator m).nested, ?_⟩
          · obtain ⟨input, ts, source, runInput, among⟩ := supplied
            have inside : ∀ t ∈ us', t.Fills (start.inputColumns m 0) := by
              intro t member
              rw [inputColumns_of_getElem? source]
              exact runInput.fills wellFormed current scope fits
                (reached.input (List.mem_of_getElem? source)) filled t (among t member)
            have alike' := alike.flip.imp fun _ _ pair => Tuple.AgreeBut.symm pair
            exact ((roots alike').imp fun _ _ pair => pair.2 (filled.enter inside)).flip
          · rw [same, Operator.mapNested_restore]
      · obtain ⟨x, x', inputs, inputs', leads⟩ := pruned.single_inputs wellFormed reached'
          (by rw [assigns]; rfl)
        have reachedX : plan.Reaches x' := reached'.input (inputs' ▸ List.mem_singleton_self _)
        have below := below (only inputs) reachedX leads framed
        exact ⟨fun ts => Mirrors.filter assigns filtered gone unreadHere inputs inputs' below.1,
          fun filled us => Mirrors.of_filter assigns filtered gone unreadHere inputs inputs' lawful
            (below.2 filled)
            (fills_assign wellFormed current scope fits filled reached assigns inputs)⟩
    · have below := below (only inputs) reached' leads framed
      exact ⟨fun ts => Mirrors.pass operator gone inputs below.1, fun filled us =>
        Mirrors.of_pass operator gone inputs lawful (below.2 filled)
          (fills_assign wellFormed current scope fits filled reached operator inputs)⟩

omit wellFormed unread local_ scope lawful fits in
theorem framesAgree_trim (within : start.FramesWithin frames) :
    plan.FramesAgree dropped frames (plan.trim frames) := by
  intro owner reached
  have columns : ∀ v ∉ dropped, v ∈ start.inputColumns owner 0 → v ∈ plan.inputColumns owner 0 := by
    intro v kept member
    unfold inputColumns at member
    cases found : (start.inputs owner)[0]? with
    | none => rw [found] at member; cases member
    | some c =>
      obtain ⟨c', found', leads⟩ := getElem?_replaced (pruned.inputs owner reached) found
      have fewer := pruned.columns current wellFormed' current'
        ((pruned.reaches reached).input (List.mem_of_getElem? found)) leads
        (reached.input (List.mem_of_getElem? found'))
      rw [found] at member
      rw [inputColumns_of_getElem? found']
      exact (fewer.mem_iff kept).mpr member
  unfold trim
  cases frame : frames owner with
  | none => exact .none
  | some ts =>
    refine .some (List.forall₂_map_right_iff.mpr (List.forall₂_same.mpr fun t member v kept => ?_))
    by_cases listed : v ∈ plan.inputColumns owner 0
    · rw [Tuple.restrict_of_mem listed]
    · rw [Tuple.Within.restrict t _ v listed]
      exact within owner ts frame t member v fun before => listed (columns v kept before)

/-- Every node that is left has the tuples that it had before, as far as they are not dropped. -/
theorem restricted_iff {vs : List Var} {out : List Tuple} (invoked : start.Invocation I frames)
    (reached : plan.Reaches n) (kept : ∀ v ∈ vs, v ∉ dropped) :
    (∃ us, plan.Yields I (plan.trim frames) n us ∧ out = us.map fun t => t.restrict vs) ↔
      ∃ ts, start.Yields I frames n ts ∧ out = ts.map fun t => t.restrict vs := by
  have framed := pruned.framesAgree_trim current wellFormed' current' (invoked.framesWithin current)
  have restricted : ∀ {ts us : List Tuple}, List.Forall₂ (Tuple.AgreeBut dropped) ts us →
      ts.map (fun t => t.restrict vs) = us.map fun t => t.restrict vs := by
    intro ts us alike
    rw [← List.forall₂_eq_eq_eq, List.forall₂_map_left_iff, List.forall₂_map_right_iff]
    exact alike.imp fun t u pair => pair.restrict_eq kept
  obtain ⟨mirrors, mirrored⟩ := pruned.mirrors wellFormed current wellFormed' current' unread local_
    scope lawful fits (pruned.reaches reached) .refl reached framed
  constructor
  · rintro ⟨us, run, rfl⟩
    obtain ⟨ts, run', alike⟩ :=
      (mirrored (invoked.framesFilled wellFormed current scope fits)).runs us run
    exact ⟨ts, run', restricted alike⟩
  · rintro ⟨ts, run, rfl⟩
    obtain ⟨us, run', alike⟩ := mirrors.runs ts run
    exact ⟨us, run', restricted alike⟩

/-- If nothing is dropped from the columns of a node, then they hold what they held before. -/
theorem yields_iff (invoked : start.Invocation I frames) (reached : plan.Reaches n)
    (kept : ∀ v ∈ plan.columns n, v ∉ dropped) :
    plan.Yields I (plan.trim frames) n us ↔
      ∃ ts, start.Yields I frames n ts ∧ us = ts.map fun t => t.restrict (plan.columns n) := by
  rw [← pruned.restricted_iff wellFormed current wellFormed' current' unread local_ scope lawful fits
    invoked reached kept]
  have whole : ∀ {us}, plan.Yields I (plan.trim frames) n us →
      us = us.map fun t => t.restrict (plan.columns n) := by
    intro us run
    have within := run.within current' reached (plan.framesWithin_trim frames)
    exact (List.map_congr_left fun t member => Tuple.restrict_of_within (within t member)).trans
      (List.map_id us) |>.symm
  constructor
  · exact fun run => ⟨us, run, whole run⟩
  · rintro ⟨us', run, rfl⟩
    rwa [← whole run]

end Pruned

end Plan

end QueryOptimizer
