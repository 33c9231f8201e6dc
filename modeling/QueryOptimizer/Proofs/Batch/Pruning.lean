import Mathlib
import QueryOptimizer.Proofs.Batch.Assignment
import QueryOptimizer.Proofs.Batch.Normalization
import QueryOptimizer.Proofs.Relational.Inlined
import QueryOptimizer.Proofs.Relational.Pruned

/-! # Sweeps that drop unused assignments

A sweep collects at the root what anybody needs, and drops on its way down the assignments of all other
variables. What is dropped is needed by nobody afterwards, so the plan stays valid and keeps its
results. A sweep that drops nothing has seen that everything that is left is needed.
-/

namespace QueryOptimizer

namespace Plan

variable {start plan plan' plan'' : Plan} {needed : VarSet} {dropped gone : List Var} {slot : Slot}
  {id n : NodeId} {v : Var}

/-! ## Valid plans -/

theorem forM_ok_of_forall {ids : List NodeId} {f : NodeId → Except Failure Unit}
    (each : ∀ n ∈ ids, f n = .ok ()) : ids.forM f = .ok () := by
  induction ids with
  | nil => rfl
  | cons id ids ih =>
    exact bind_ok_iff.mpr ⟨(), each id List.mem_cons_self,
      ih fun n member => each n (List.mem_cons_of_mem _ member)⟩

theorem SchemasCurrent.schema_eq (current : plan.SchemasCurrent) (reached : plan.Reaches n) :
    plan.schema n = .ok (plan.columns n) := by
  obtain ⟨vs, stored, _⟩ := current n reached
  rw [columns_of_schema stored]
  exact stored

/-- A plan is valid if every operator finds what it reads. -/
theorem validate_of_inScope (current : plan.SchemasCurrent) (scope : plan.InScope) :
    plan.validate false = .ok () := by
  refine forM_ok_of_forall fun n member => bind_ok_iff.mpr ⟨(), ?_, rfl⟩
  have reached := reaches_of_mem_reachable member
  have schemas : (plan.inputs n).mapM plan.schema = .ok ((plan.inputs n).map plan.columns) :=
    mapM_ok_iff_forall₂.mpr (List.forall₂_map_right_iff.mpr (List.forall₂_same.mpr
      fun c isInput => current.schema_eq (reached.input isInput)))
  refine bind_ok_iff.mpr ⟨_, schemas, ?_⟩
  split
  · rfl
  · rename_i other
    dsimp only
    split
    · rename_i v found
      obtain ⟨c, isInput, inside⟩ := scope n reached other v (List.mem_of_find?_eq_some found)
      have outside := List.find?_some found
      rw [decide_eq_true_eq] at outside
      exact absurd (List.mem_flatten.mpr ⟨_, List.mem_map_of_mem isInput, inside⟩) outside
    · rfl

/-! ## Needed variables -/

/-- Whether a variable is read by some operator, or is a column of the result. -/
def Needed (plan : Plan) (v : Var) : Prop :=
  (∃ n, plan.Reaches n ∧ v ∈ (plan.operator n).used) ∨
    ¬(plan.operator plan.root).Consumes ∧ v ∈ plan.columns plan.root

theorem mem_neededVars (collected : plan.neededVars = .ok needed) : v ∈ needed ↔ plan.Needed v := by
  unfold neededVars at collected
  unfold Needed
  cases operator : plan.operator plan.root with
  | write | insertDelete | sink =>
    rw [operator] at collected
    cases pure_ok_iff.mp collected
    simp only [VarSet.mem_ofList, mem_flatMap_reachable, Operator.Consumes, not_true_eq_false,
      false_and, or_false]
  | _ =>
    rw [operator] at collected
    obtain ⟨vs, stored, collected⟩ := bind_ok_iff.mp collected
    cases pure_ok_iff.mp collected
    simp only [VarSet.mem_ofList, List.mem_append, mem_flatMap_reachable, columns_of_schema stored,
      Operator.Consumes, not_false_eq_true, true_and]

/-- Whether an assignment gives values to needed variables only. -/
def AssignsNeeded (plan : Plan) (needed : VarSet) (n : NodeId) : Prop :=
  ∀ vars exprs, plan.operator n = .assign vars exprs → ∀ v ∈ vars, v ∈ needed

theorem assignsNeeded_of_none (done : plan.dropUnusedAssigns needed slot = .ok none)
    (here : plan.nodeAt slot = .ok id) : plan.AssignsNeeded needed id := by
  obtain ⟨id', here', ⟨_, all⟩ | ⟨_, _, _, impossible, _⟩⟩ := dropUnusedAssigns_cases done
  · cases here.symm.trans here'
    exact fun vars exprs operator => VarSet.containsAll_iff.mp (all vars exprs operator)
  · cases impossible

/-! ## Dropping -/

/-- Only assignments of variables that are not needed are dropped. -/
theorem pruned_dropUnusedAssigns (wellFormed : plan.WellFormed) (matched : plan.AssignsMatched)
    (holds : plan.HoldsReachable slot) (below : slot ≠ .root)
    (done : plan.dropUnusedAssigns needed slot = .ok (some plan')) :
    ∃ gone, (∀ v ∈ gone, v ∉ needed) ∧ plan.Pruned gone plan' := by
  obtain ⟨id, here, ⟨impossible, _⟩ | ⟨vars, exprs, _, same, operator, _, dropped⟩⟩ :=
    dropUnusedAssigns_cases done
  · cases impossible
  cases same
  have reached : plan.Reaches id := holds.reaches here
  have length := matched id reached vars exprs operator
  have isEntries : plan.operator id =
      .assign ((vars.zip exprs).map (·.1)) ((vars.zip exprs).map (·.2)) := by
    rw [operator, List.map_fst_zip length.ge, List.map_snd_zip length.le]
  let gone := vars.filter fun v => decide (v ∉ needed)
  have lost : ∀ entry ∈ vars.zip exprs, decide (entry.1 ∈ needed) = false → entry.1 ∈ gone :=
    fun entry member unneeded => List.mem_filter.mpr
      ⟨(List.of_mem_zip member).1, decide_eq_true (of_decide_eq_false unneeded)⟩
  have assigned : ∀ v ∈ gone, v ∈ plan.assigned := fun v member =>
    mem_assigned.mpr ⟨id, reached, by rw [operator]; exact (List.mem_filter.mp member).1⟩
  refine ⟨gone, fun v member => of_decide_eq_true (List.mem_filter.mp member).2, ?_⟩
  rcases dropped with ⟨nothing, x, isInput, placed⟩ | rfl
  · obtain ⟨inputs, _⟩ := wellFormed.inputs_single reached (by rw [operator]; rfl) isInput
    have passes : plan.PassesTo gone id x := by
      refine ⟨_, _, isEntries, fun v member => ?_, inputs⟩
      obtain ⟨entry, inside, rfl⟩ := List.mem_map.mp member
      exact lost entry inside (Bool.not_eq_true _ ▸ List.filter_eq_nil_iff.mp nothing entry inside)
    exact .of_rewired (drop_reworked wellFormed holds here (.single (List.mem_of_getElem? isInput))
      placed).rewired below passes assigned
  · refine .setOperator (.inr ⟨_, _, isEntries, rfl, lost⟩) ?_ assigned
    rw [operator]
    exact ⟨rfl, rfl, fun owner => by simp, .refl _⟩

/-- The root never drops anything, since its columns are needed. -/
theorem dropUnusedAssigns_root (current : plan.SchemasCurrent)
    (collected : plan.neededVars = .ok needed) :
    plan.dropUnusedAssigns needed .root ≠ .ok (some plan') := by
  intro done
  obtain ⟨id, here, ⟨impossible, _⟩ | ⟨vars, exprs, _, _, operator, missing, _⟩⟩ :=
    dropUnusedAssigns_cases done
  · cases impossible
  cases here
  refine missing (VarSet.containsAll_iff.mpr fun v member => ?_)
  refine (mem_neededVars collected).mpr (.inr ⟨?_, ?_⟩)
  · rw [operator]
    exact id
  · rw [current.columns_plain .refl operator trivial]
    exact mem_appendNew.mpr (.inr member)

theorem Trimmed.needed_iff (trimmed : plan.Trimmed plan') : plan'.Needed v ↔ plan.Needed v := by
  have operator : ∀ {n}, plan.Reaches n → plan'.operator n = plan.operator n := trimmed.operator
  have columns : plan'.columns plan'.root = plan.columns plan.root := by
    unfold columns
    rw [trimmed.root, trimmed.node .refl]
  unfold Needed
  rw [columns, trimmed.root, operator .refl]
  refine or_congr_left (exists_congr fun n => ?_)
  rw [trimmed.reaches_iff]
  exact and_congr_right fun reached => by rw [operator reached]

/-- A plan in which only assignments that nobody needs were dropped. -/
structure Sheds (start : Plan) (dropped : List Var) (plan : Plan) : Prop where
  pruned : start.Pruned dropped plan
  wellFormed : plan.WellFormed
  current : plan.SchemasCurrent
  unneeded : ∀ v ∈ dropped, ¬plan.Needed v
  root : ¬(plan.operator plan.root).Consumes → plan.columns plan.root = start.columns start.root

namespace Sheds

theorem refl (wellFormed : start.WellFormed) (current : start.SchemasCurrent) :
    start.Sheds [] start where
  pruned := .refl start
  wellFormed := wellFormed
  current := current
  unneeded _ impossible := by cases impossible
  root _ := rfl

variable (sheds : start.Sheds dropped plan)

include sheds

/-- If nobody needs what is dropped, then nobody needs more than before. -/
theorem step (later : plan.Pruned gone plan') (wellFormed : plan'.WellFormed)
    (current : plan'.SchemasCurrent) (unneeded : ∀ v ∈ gone, ¬plan.Needed v) :
    start.Sheds (dropped ++ gone) plan' ∧ ∀ v, plan'.Needed v → plan.Needed v := by
  have consumes : (plan'.operator plan'.root).Consumes ↔ (plan.operator plan.root).Consumes := by
    rw [(later.operator _ .refl).consumes_iff, later.root]
  have root : ¬(plan'.operator plan'.root).Consumes →
      plan'.columns plan'.root = plan.columns plan.root := by
    intro shown
    have fewer := later.columns_self sheds.current wellFormed current .refl
    rw [later.root] at fewer ⊢
    exact fewer.eq_of_kept fun v member isGone =>
      unneeded v isGone (.inr ⟨fun hidden => shown (consumes.mpr hidden), member⟩)
  have needed : ∀ v, plan'.Needed v → plan.Needed v := by
    rintro v (⟨n, reached, read⟩ | ⟨shown, member⟩)
    · exact .inl ⟨n, later.reaches reached, (later.operator n reached).used_subset read⟩
    · exact .inr ⟨fun hidden => shown (consumes.mpr hidden), root shown ▸ member⟩
  refine ⟨⟨sheds.pruned.trans later, wellFormed, current, fun v member isNeeded => ?_, ?_⟩, needed⟩
  · rcases List.mem_append.mp member with before | now
    · exact sheds.unneeded v before (needed v isNeeded)
    · exact unneeded v now (needed v isNeeded)
  · exact fun shown => (root shown).trans (sheds.root fun hidden => shown (consumes.mpr hidden))

theorem trim (trimmed : plan.Trimmed plan') : start.Sheds dropped plan' := by
  have reaches : ∀ n, plan'.Reaches n → plan.Reaches n := fun n => trimmed.reaches_iff.mp
  have same : plan.Pruned [] plan' := (Pruned.refl plan).transfer trimmed.root reaches
    (fun n reached => trimmed.operator (reaches n reached))
    fun n reached => trimmed.inputs (reaches n reached)
  have stepped := (sheds.step same (trimmed.wellFormed sheds.wellFormed)
    (trimmed.schemasCurrent sheds.wellFormed sheds.current) fun _ impossible => by cases impossible).1
  rwa [List.append_nil] at stepped

/-- One firing of the rule, with the schemas computed again. -/
theorem drop (matched : start.AssignsMatched) (covers : ∀ v, plan.Needed v → v ∈ needed)
    (holds : plan.HoldsReachable slot) (below : slot ≠ .root)
    (done : plan.dropUnusedAssigns needed slot = .ok (some plan'))
    (refreshed : plan'.refreshSchemas = .ok plan'') :
    ∃ gone, start.Sheds (dropped ++ gone) plan'' ∧ (∀ v, plan''.Needed v → v ∈ needed) ∧
      Retains slot.holder? plan plan'' := by
  have changed := changed_dropUnusedAssigns sheds.wellFormed holds done
  have wellFormed' := changed.wellFormed sheds.wellFormed
  obtain ⟨_, again, only, current⟩ := wellFormed'.refreshSchemas
  cases refreshed.symm.trans again
  obtain ⟨gone, unneeded, pruned⟩ := pruned_dropUnusedAssigns sheds.wellFormed
    (sheds.pruned.assignsMatched matched) holds below done
  have later : plan.Pruned gone plan'' := pruned.transfer only.root (fun n => only.reaches_iff.mp)
    (fun n _ => only.operator n) fun n _ => only.inputs n
  obtain ⟨sheds', fewer⟩ := sheds.step later (only.redrawn.wellFormed wellFormed') current
    fun v isGone isNeeded => unneeded v isGone (covers v isNeeded)
  exact ⟨gone, sheds', fun v isNeeded => covers v (fewer v isNeeded),
    changed.retains.trans (only.redrawn.retains _)⟩

end Sheds

end Plan

/-! ## Offers -/

namespace Sweep

variable {start : Plan} {dropped : List Var} {hook : Hook} {slot : Slot} {w w' w₁ w₂ : Sweep}
  {r : RuleState} {needed : VarSet} {id : NodeId} {fullDepth : Bool} {fuel : Nat}

/-- The rule does something on the way down only: it collects at the root, and drops below it. -/
theorem dropUnusedAssigns_applied (rule : r.rule = .dropUnusedAssigns)
    (done : applyRule hook slot w r = .ok w') :
    hook = .after ∧ w' = { w with rules := w.rules ++ [r] } ∨
    hook = .before ∧ ∃ r', r'.rule = .dropUnusedAssigns ∧
      (slot = .root ∧ w.session.plan.neededVars = .ok r'.vars ∨ slot ≠ .root ∧ r' = r) ∧
      (w.session.plan.dropUnusedAssigns r'.vars slot = .ok none ∧
          w' = { w with rules := w.rules ++ [r'] } ∨
        ∃ plan, w.session.plan.dropUnusedAssigns r'.vars slot = .ok (some plan) ∧
          plan.refreshSchemas = .ok w'.session.plan ∧ w'.rules = w.rules ++ [r'] ∧
          w'.changed = true) := by
  obtain ⟨_, _, ⟨other, _⟩ | ⟨_, r', s, fired, offered, outcome⟩⟩ := applyRule_cases done
  · rw [rule] at other
    cases other
  rcases RuleState.offer_dropUnusedAssigns rule offered with ⟨rfl, rfl, rfl, rfl⟩ |
    ⟨rfl, sameRule, collected, found, dropped, result⟩
  · rcases outcome with ⟨_, rfl⟩ | ⟨impossible, _⟩
    · exact .inl ⟨rfl, rfl⟩
    · cases impossible
  · refine .inr ⟨rfl, r', sameRule.trans rule, collected, ?_⟩
    cases found with
    | none =>
      cases result
      rcases outcome with ⟨_, rfl⟩ | ⟨impossible, _⟩
      · exact .inl ⟨dropped, rfl⟩
      · cases impossible
    | some plan =>
      cases result
      rcases outcome with ⟨impossible, _⟩ | ⟨_, plan', refreshed, rfl⟩
      · cases impossible
      · exact .inr ⟨plan, dropped, refreshed, rfl, rfl⟩

/-- The rule collects anew at the root, whatever it knew before. -/
theorem sweepWithin_recollects (rules : w.rules = [r]) (rule : r.rule = .dropUnusedAssigns)
    (done : sweepWithin fullDepth fuel w .root = .ok w') :
    ∃ needed, w.session.plan.neededVars = .ok needed ∧
      sweepWithin fullDepth fuel { w with rules := [{ r with vars := needed }] } .root = .ok w' := by
  cases fuel with
  | zero => cases done
  | succ fuel =>
    obtain ⟨w₁, id, w₂, before, _, _, _⟩ := sweepWithin_cases done
    obtain ⟨impossible, _⟩ | ⟨_, r', _, ⟨_, collected⟩ | ⟨impossible, _⟩, _⟩ :=
      dropUnusedAssigns_applied rule (apply_single rules before)
    · cases impossible
    · refine ⟨r'.vars, collected, ?_⟩
      have same : apply .before .root { w with rules := [{ r with vars := r'.vars }] } =
          w.apply .before .root := by
        obtain ⟨_, _, _⟩ := r
        obtain ⟨_, _, _, _⟩ := w
        cases rules
        cases rule
        rfl
      unfold sweepWithin at done ⊢
      rw [same]
      exact done
    · exact absurd rfl impossible

/-- The rule has dropped only what nobody needs. -/
def Shedding (start : Plan) (rules : List RuleState) (s : Session) : Prop :=
  ∃ r dropped, rules = [r] ∧ r.rule = .dropUnusedAssigns ∧ start.Sheds dropped s.plan

/-- The rule has collected what is needed, too. -/
def Collected (start : Plan) (rules : List RuleState) (s : Session) : Prop :=
  ∃ r dropped, rules = [r] ∧ r.rule = .dropUnusedAssigns ∧ start.Sheds dropped s.plan ∧
    ∀ v, s.plan.Needed v → v ∈ r.vars

section Collecting

variable (matched : start.AssignsMatched)

include matched

theorem collected_applyRule (rule : r.rule = .dropUnusedAssigns)
    (sheds : start.Sheds dropped w.session.plan) (covers : ∀ v, w.session.plan.Needed v → v ∈ r.vars)
    (holds : w.session.plan.HoldsReachable slot) (done : applyRule hook slot w r = .ok w') :
    ∃ r' dropped', w'.rules = w.rules ++ [r'] ∧ r'.rule = .dropUnusedAssigns ∧
      start.Sheds dropped' w'.session.plan ∧ (∀ v, w'.session.plan.Needed v → v ∈ r'.vars) ∧
      Plan.Retains slot.holder? w.session.plan w'.session.plan := by
  rcases dropUnusedAssigns_applied rule done with ⟨rfl, rfl⟩ | ⟨rfl, r', rule', collected, outcome⟩
  · exact ⟨r, dropped, rfl, rule, sheds, covers, .refl _ _⟩
  have covers' : ∀ v, w.session.plan.Needed v → v ∈ r'.vars := by
    rcases collected with ⟨_, collected⟩ | ⟨_, rfl⟩
    · exact fun v => (Plan.mem_neededVars collected).mpr
    · exact covers
  rcases outcome with ⟨_, rfl⟩ | ⟨plan, fired, refreshed, rules, _⟩
  · exact ⟨r', dropped, rfl, rule', sheds, covers', .refl _ _⟩
  · rcases collected with ⟨rfl, collected⟩ | ⟨below, rfl⟩
    · exact absurd fired (Plan.dropUnusedAssigns_root sheds.current collected)
    · obtain ⟨gone, sheds', covered, retains⟩ := sheds.drop matched covers' holds below fired refreshed
      exact ⟨r', dropped ++ gone, rules, rule', sheds', covered, retains⟩

theorem collected_keeps : Keeps (Collected start) where
  step := by
    rintro hook slot w r w' rest ⟨q, dropped, single, rule, sheds, covers⟩ holds done
    obtain ⟨earlier, rfl, rfl⟩ : w.rules = [] ∧ q = r ∧ rest = [] := by
      have length := congrArg List.length single
      rw [List.length_append, List.length_cons, List.length_singleton] at length
      have none := List.eq_nil_of_length_eq_zero (show w.rules.length = 0 by omega)
      rw [none, List.nil_append, List.cons.injEq] at single
      exact ⟨none, single.1.symm, single.2⟩
    obtain ⟨r', dropped', rules, rule', sheds', covers', retains⟩ :=
      collected_applyRule matched rule sheds covers holds done
    rw [earlier, List.nil_append] at rules
    exact ⟨⟨r', dropped', by rw [rules, List.append_nil], rule', sheds', covers'⟩, retains⟩

end Collecting

theorem Shedding.sweep (matched : start.AssignsMatched) (shedding : Shedding start w.rules w.session)
    (done : Sweep.sweepWithin fullDepth fuel w .root = .ok w') :
    Shedding start w'.rules w'.session := by
  obtain ⟨r, dropped, rules, rule, sheds⟩ := shedding
  obtain ⟨needed, collected, done⟩ := sweepWithin_recollects rules rule done
  have covers : ∀ v, w.session.plan.Needed v → v ∈ needed :=
    fun v => (Plan.mem_neededVars collected).mpr
  obtain ⟨⟨r', dropped', rules', rule', sheds', _⟩, _⟩ := (collected_keeps matched).sweepWithin _
    (w := { w with rules := [{ r with vars := needed }] }) ⟨_, dropped, rfl, rule, sheds, covers⟩
    (fun _ impossible => by cases impossible) done
  exact ⟨r', dropped', rules', rule', sheds'⟩

/-! ## Sweeps that drop nothing -/

/-- Whether a sweep drops from a plan what is not among the needed variables. -/
def Needs (s : Session) (needed : VarSet) (w : Sweep) : Prop :=
  w.session = s ∧ ∃ r, w.rules = [r] ∧ r.rule = .dropUnusedAssigns ∧ r.vars = needed

/-- An offer that drops nothing shows that what the node assigns is needed. -/
theorem attains_needed {s : Session} (collected : s.plan.neededVars = .ok needed) :
    Attains true .before (Needs s needed) fun s n => s.plan.AssignsNeeded needed n where
  visit := fun ⟨session, r, rules, known⟩ => ⟨session, r, rules, known⟩
  offer := by
    rintro hook w w' slot id ⟨session, r, rules, rule, vars⟩ _ here done calm
    obtain ⟨rfl, rfl⟩ | ⟨rfl, r', rule', chosen, outcome⟩ :=
      dropUnusedAssigns_applied rule (apply_single rules done)
    · exact ⟨⟨session, r, rfl, rule, vars⟩, .refl _, fun _ met => met, fun impossible => by
        cases impossible⟩
    · have vars' : r'.vars = needed := by
        rcases chosen with ⟨_, again⟩ | ⟨_, rfl⟩
        · rw [show w.session = s from session] at again
          exact Except.ok.inj (again.symm.trans collected)
        · exact vars
      rcases outcome with ⟨nothing, rfl⟩ | ⟨_, _, _, _, changed⟩
      · refine ⟨⟨session, r', rfl, rule', vars'⟩, .refl _, fun _ met => met, fun _ => ?_⟩
        exact vars' ▸ Plan.assignsNeeded_of_none nothing here
      · exact Bool.noConfusion ((calm rfl).symm.trans changed)

end Sweep

/-! ## Runs -/

namespace Batch

variable {start : Plan} {batch : Batch} {rules : List RuleState} {s s' : Session} {name : String}
  {sweeps : Nat} {changed changed' : Bool}

/-- When a sweep drops nothing, everything that is assigned is needed. -/
theorem assigned_needed {w : Sweep} (fullDepth : batch.controller.fullDepth = true)
    (shedding : Sweep.Shedding start rules s) (swept : batch.sweep rules s = .ok w)
    (unchanged : w.changed = false) :
    w.session = s ∧ ∀ v ∈ s.plan.assigned, s.plan.Needed v := by
  obtain ⟨r, dropped, single, rule, sheds⟩ := shedding
  unfold sweep at swept
  rw [fullDepth] at swept
  obtain ⟨needed, collected, swept⟩ := Sweep.sweepWithin_recollects single rule swept
  obtain ⟨⟨same, _⟩, _, checked⟩ := (Sweep.attains_needed collected).sweep
    (w := { rules := [{ r with vars := needed }], session := s }) ⟨rfl, _, rfl, rule, rfl⟩ rfl swept
    fun _ => unchanged
  refine ⟨same, fun v isAssigned => ?_⟩
  obtain ⟨n, reached, isAssigned⟩ := Plan.mem_assigned.mp isAssigned
  have isNeeded := checked n (same.symm ▸ reached)
  rw [same] at isNeeded
  refine (Plan.mem_neededVars collected).mp ?_
  cases operator : s.plan.operator n with
  | assign vars exprs =>
    rw [operator] at isAssigned
    exact isNeeded vars exprs operator v isAssigned
  | _ => rw [operator] at isAssigned; cases isAssigned

theorem sheds_sweepUntilStable (fullDepth : batch.controller.fullDepth = true)
    (matched : start.AssignsMatched) (shedding : Sweep.Shedding start rules s)
    (done : batch.sweepUntilStable sweeps changed rules s = .ok (s', changed')) :
    ∃ dropped, start.Sheds dropped s'.plan ∧ ∀ v ∈ s'.plan.assigned, s'.plan.Needed v := by
  induction sweeps generalizing rules s changed with
  | zero => cases done
  | succ sweeps ih =>
    obtain ⟨w, swept, done⟩ := bind_ok_iff.mp done
    split at done
    · exact ih (shedding.sweep matched swept) done
    · rename_i unchanged
      cases pure_ok_iff.mp done
      obtain ⟨same, needed⟩ :=
        assigned_needed fullDepth shedding swept (Bool.eq_false_iff.mpr unchanged)
      obtain ⟨_, dropped, _, _, sheds⟩ := shedding
      rw [same]
      exact ⟨dropped, sheds, needed⟩

/-- A batch that drops unused assignments until nothing changes drops only what nobody needs, and
    leaves nothing that nobody needs. -/
theorem sheds_run (wellFormed : s.plan.WellFormed) (current : s.plan.SchemasCurrent)
    (matched : s.plan.AssignsMatched)
    (done : (Batch.fixpoint name true [.dropUnusedAssigns]).run s = .ok (s', changed)) :
    ∃ dropped, s.plan.Sheds dropped s'.plan ∧ ∀ v ∈ s'.plan.assigned, s'.plan.Needed v := by
  unfold run at done
  rw [if_pos (show (Batch.fixpoint name true [.dropUnusedAssigns]).controller.untilStable = true from
    rfl)] at done
  obtain ⟨⟨s₁, _⟩, swept, done⟩ := bind_ok_iff.mp done
  cases pure_ok_iff.mp done
  obtain ⟨dropped, sheds, needed⟩ := sheds_sweepUntilStable rfl matched
    ⟨_, [], rfl, rfl, .refl wellFormed current⟩ swept
  have trimmed := s₁.plan.trimmed_collectGarbage
  refine ⟨dropped, sheds.trim trimmed, fun v isAssigned => trimmed.needed_iff.mpr (needed v ?_)⟩
  obtain ⟨n, reached, isAssigned⟩ := Plan.mem_assigned.mp isAssigned
  have reached := trimmed.reaches_iff.mp reached
  exact Plan.mem_assigned.mpr ⟨n, reached, trimmed.operator reached ▸ isAssigned⟩

end Batch

/-- Dropping unused assignments is safe. The plan stays valid and keeps the schema of its root unless
    the root consumes its tuples, and what is still assigned is needed. Every operator that is left has
    the tuples that it had, for the columns that no dropped assignment gave values to; if each variable
    is produced once, these are all columns that it still has. -/
theorem unused_assigns_dropped_safely {s s' : Session} {name : String} {changed : Bool}
    (wellFormed : s.plan.WellFormed) (current : s.plan.SchemasCurrent)
    (valid : s.plan.validate false = .ok ()) (matched : s.plan.AssignsMatched)
    (done : (Batch.fixpoint name true [.dropUnusedAssigns]).run s = .ok (s', changed)) :
    s'.plan.validate false = .ok () ∧
    (¬(s.plan.operator s.plan.root).Consumes →
      s'.plan.schema s'.plan.root = s.plan.schema s.plan.root) ∧
    (∀ v ∈ s'.plan.assigned, s'.plan.Needed v) ∧
    ∀ I : Interpretation, I.Lawful → I.FoldsLocally →
      (∀ n, s.plan.Reaches n → (s.plan.operator n).Fits I (s.plan.inputColumns n)) →
      ∀ frames, s.plan.Invocation I frames → ∀ n, s'.plan.Reaches n →
        (∀ vs, (∀ v ∈ vs, v ∈ s'.plan.columns n ∧ (v ∈ s.plan.assigned → v ∈ s'.plan.assigned)) →
          ∀ out, (∃ us, s'.plan.Yields I (s'.plan.trim frames) n us ∧ out = us.map (·.restrict vs)) ↔
            ∃ ts, s.plan.Yields I frames n ts ∧ out = ts.map (·.restrict vs)) ∧
        (s.plan.ProducedOnce → ∀ us, s'.plan.Yields I (s'.plan.trim frames) n us ↔
          ∃ ts, s.plan.Yields I frames n ts ∧ us = ts.map (·.restrict (s'.plan.columns n))) := by
  obtain ⟨dropped, sheds, needed⟩ := Batch.sheds_run wellFormed current matched done
  have pruned := sheds.pruned
  have gone : ∀ v ∈ dropped, v ∉ s'.plan.assigned := fun v isDropped isAssigned =>
    sheds.unneeded v isDropped (needed v isAssigned)
  have unread : ∀ v ∈ dropped, ∀ n, s'.plan.Reaches n → v ∉ (s'.plan.operator n).used :=
    fun v isDropped n reached read => sheds.unneeded v isDropped (.inl ⟨n, reached, read⟩)
  have scope := Plan.inScope_of_validate valid
  have scope' := pruned.inScope current sheds.wellFormed sheds.current scope unread
  refine ⟨Plan.validate_of_inScope sheds.current scope', fun shown => ?_, needed, ?_⟩
  · have shown' : ¬(s'.plan.operator s'.plan.root).Consumes := by
      rwa [(pruned.operator _ .refl).consumes_iff, pruned.root]
    rw [sheds.current.schema_eq .refl, current.schema_eq .refl, sheds.root shown']
  intro I lawful local_ fits frames invoked n reached
  constructor
  · intro vs kept out
    refine pruned.restricted_iff wellFormed current sheds.wellFormed sheds.current unread local_ scope
      lawful fits invoked reached fun v member isDropped => ?_
    exact gone v isDropped ((kept v member).2 (pruned.assigned v isDropped))
  · intro once us
    exact pruned.yields_iff wellFormed current sheds.wellFormed sheds.current unread local_ scope
      lawful fits invoked reached fun v member =>
        pruned.not_mem_columns sheds.wellFormed sheds.current once scope' gone reached member

/-- Of two assignments of unused variables, the lower one is read by the upper one. -/
def chainedAssignSession : Session where
  plan := {
    nodes := [
      some { Node.above .emptySource [] with schema := some [] },
      some { Node.above (.scan "S" [1]) [0] with schema := some [1] },
      some { Node.above (.assign [2] [.var 1]) [1] with schema := some [1, 2] },
      some { Node.above (.assign [3, 4] [.var 2, .var 1]) [2] with schema := some [1, 2, 3, 4] },
      some { Node.above (.select (.call .eq [.var 4, .var 4] [])) [3] with
        schema := some [1, 2, 3, 4] },
      some { Node.above (.project [1]) [4] with schema := some [1] }],
    root := 5 }
  context := { catalog := ⟨[]⟩ }

/-- The second sweep drops what only the first dropped assignment read. -/
theorem unused_assigns_dropped_safely_chain : ∃ s',
    (Batch.fixpoint "clean" true [.dropUnusedAssigns]).run chainedAssignSession = .ok (s', true) ∧
      s'.plan.operator 3 = .assign [4] [.var 1] ∧ s'.plan.inputs 3 = [1] ∧
      s'.plan.columns 4 = [1, 4] ∧ s'.plan.validate false = .ok () ∧
      ∀ us, s'.plan.Yields settledWorld (s'.plan.trim .outer) 4 us ↔
        ∃ ts, chainedAssignSession.plan.Yields settledWorld .outer 4 ts ∧
          us = ts.map (·.restrict [1, 4]) := by
  have wellFormed : chainedAssignSession.plan.WellFormed :=
    .of_flat ⟨by decide, by decide⟩ (by decide) (by decide) (by decide)
  have reaches : ∀ {id}, chainedAssignSession.plan.Reaches id → id ∈ [5, 4, 3, 2, 1, 0] :=
    Plan.mem_reachable
  have current : chainedAssignSession.plan.SchemasCurrent := by
    intro id reached
    have member := reaches reached
    fin_cases member <;> exact ⟨_, rfl, rfl⟩
  have matched : chainedAssignSession.plan.AssignsMatched := by
    intro n reached vars exprs operator
    have member := reaches reached
    fin_cases member <;> cases operator <;> rfl
  have fits : ∀ n, chainedAssignSession.plan.Reaches n → (chainedAssignSession.plan.operator n).Fits
      settledWorld (chainedAssignSession.plan.inputColumns n) := by
    intro n reached
    have member := reaches reached
    have rows : ∀ row ∈ [[Scalar.boolean true], [.boolean false]], [1].length ≤ row.length := by decide
    fin_cases member
    · exact trivial
    · exact trivial
    · exact le_refl 2
    · exact le_refl 1
    · exact rows
    · exact trivial
  have local_ : settledWorld.FoldsLocally := fun _ _ _ _ _ impossible => impossible
  have run : (((Batch.fixpoint "clean" true [.dropUnusedAssigns]).run
      chainedAssignSession).toOption.map fun run => decide (run.2 = true ∧
        run.1.plan.operator 3 = .assign [4] [.var 1] ∧ run.1.plan.inputs 3 = [1] ∧
        run.1.plan.columns 4 = [1, 4] ∧ 4 ∈ run.1.plan.reachable)) = some true := by
    decide +kernel
  obtain ⟨⟨s', _⟩, found, seen⟩ := Option.map_eq_some_iff.mp run
  obtain ⟨rfl, operator, inputs, columns, listed⟩ := of_decide_eq_true seen
  have done := toOption_eq_some_iff.mp found
  obtain ⟨valid, _, _, same⟩ := unused_assigns_dropped_safely wellFormed current rfl matched done
  have tuples := (same settledWorld settledWorld_lawful local_ fits .outer .outer 4
    (Plan.reaches_of_mem_reachable listed)).2 (by decide)
  rw [columns] at tuples
  exact ⟨s', done, operator, inputs, columns, valid, tuples⟩

/-- A variable of a scan that is assigned again, for nobody. -/
def doubledColumnSession : Session where
  plan := {
    nodes := [
      some { Node.above .emptySource [] with schema := some [] },
      some { Node.above (.scan "S" [1, 2]) [0] with schema := some [1, 2] },
      some { Node.above (.assign [1] [.const (.integer .int64 5)]) [1] with schema := some [1, 2] },
      some { Node.above (.limit 10 none) [2] with schema := some [1, 2] },
      some { Node.above (.project [2]) [3] with schema := some [2] }],
    root := 4 }
  context := { catalog := ⟨[]⟩ }

/-- A variable that is produced twice keeps its column when the later assignment of it is dropped, and
    the column then holds what the assignment had covered. -/
theorem dropped_assign_uncovers_column : doubledColumnSession.plan.validate false = .ok () ∧
    doubledColumnSession.plan.AssignsMatched ∧
    ∃ s', (Batch.fixpoint "clean" true [.dropUnusedAssigns]).run doubledColumnSession = .ok (s', true) ∧
      s'.plan.columns 3 = [1, 2] ∧ ∃ us, s'.plan.Yields pairedWorld .outer 3 us ∧
        ¬∃ ts, doubledColumnSession.plan.Yields pairedWorld .outer 3 ts ∧
          us = ts.map (·.restrict [1, 2]) := by
  have run : (((Batch.fixpoint "clean" true [.dropUnusedAssigns]).run
      doubledColumnSession).toOption.map fun run => decide (run.2 = true ∧
        run.1.plan.operator 3 = .limit 10 none ∧ run.1.plan.inputs 3 = [1] ∧
        run.1.plan.operator 1 = .scan "S" [1, 2] ∧ run.1.plan.inputs 1 = [0] ∧
        run.1.plan.operator 0 = .emptySource ∧ run.1.plan.inputs 0 = [] ∧
        run.1.plan.columns 3 = [1, 2])) = some true := by
    decide +kernel
  obtain ⟨⟨s', _⟩, found, seen⟩ := Option.map_eq_some_iff.mp run
  obtain ⟨rfl, limit, limitInputs, scan, scanInputs, source, sourceInputs, columns⟩ :=
    of_decide_eq_true seen
  refine ⟨rfl, ?_, s', toOption_eq_some_iff.mp found, columns,
    [Tuple.empty.extend [1, 2] [.boolean true, .boolean false]], ?_, ?_⟩
  · intro n reached vars exprs operator
    have member : n ∈ [4, 3, 2, 1, 0] := Plan.mem_reachable reached
    fin_cases member <;> cases operator
    rfl
  · have bottom : s'.plan.Yields pairedWorld .outer 0 [Tuple.empty] := by
      refine @Plan.Yields.plain _ _ _ _ (fun _ => []) _ (fun k input isInput => ?_) (fun _ _ => rfl) ?_
      · rw [sourceInputs] at isInput
        cases isInput
      · rw [source]
        rfl
    have rows := (Plan.yields_single_iff scan trivial rfl scanInputs).mpr ⟨_, bottom, rfl⟩
    exact (Plan.yields_single_iff limit trivial rfl limitInputs).mpr ⟨_, rows, rfl⟩
  · rintro ⟨ts, above, same⟩
    have isLimit : doubledColumnSession.plan.operator 3 = .limit 10 none := rfl
    have isAssign : doubledColumnSession.plan.operator 2 =
      .assign [1] [.const (.integer .int64 5)] := rfl
    obtain ⟨us, assigned, rfl⟩ := (Plan.yields_single_iff isLimit trivial rfl rfl).mp above
    obtain ⟨_, _, turns⟩ := (Plan.yields_single_iff isAssign trivial rfl rfl).mp assigned
    have covered : ∀ t ∈ us, t 1 = some (.integer .int64 5) := by
      intro t member
      obtain ⟨u, _, row, ⟨x, _, rfl, rfl, rfl⟩, rfl⟩ :=
        Plan.exists_replaced (Operator.turns_assign.mp turns) member
      rfl
    obtain ⟨t, inside, uncovered⟩ := List.mem_map.mp (same ▸ List.mem_singleton_self _)
    have value := congrFun uncovered 1
    rw [Tuple.restrict_of_mem (by decide),
      covered t (List.mem_of_mem_drop (List.mem_of_mem_take inside))] at value
    exact absurd value (by decide)

end QueryOptimizer
