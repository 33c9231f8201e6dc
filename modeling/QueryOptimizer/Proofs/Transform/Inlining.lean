import Mathlib
import QueryOptimizer.Proofs.Derivation.Facts
import QueryOptimizer.Proofs.Plan.Change
import QueryOptimizer.Proofs.Plan.Walk
import QueryOptimizer.Proofs.Relational.Conditions
import QueryOptimizer.Proofs.Variable
import QueryOptimizer.Transform.Inlining

/-! # What inlining does

A node that is rewritten reads fewer variables that can be replaced, and none of those that it
assigns from another variable is a new one. On the way, facts are derived and keys of group-bys may
become decorations.
-/

namespace QueryOptimizer

variable {vars kept : VarSet} {renames : Renaming}

/-- Whether a renaming replaces variables of a set, and only by variables that are not in it. -/
def Renaming.LeadsOut (renames : Renaming) (vars : VarSet) : Prop :=
  ∀ v, renames.apply v ≠ v → v ∈ vars ∧ renames.apply v ∉ vars

theorem Renaming.mem_of_apply_ne {v : Var} (renamed : renames.apply v ≠ v) :
    (v, renames.apply v) ∈ renames := by
  unfold Renaming.apply at renamed ⊢
  cases found : renames.find? v with
  | none => simp [found] at renamed
  | some w =>
    obtain ⟨before, after, split, _⟩ := List.lookup_eq_some_iff.mp found
    rw [← List.mem_reverse, split]
    exact List.mem_append_right _ List.mem_cons_self

theorem Renaming.leadsOut_of_entries
    (entries : ∀ entry ∈ renames, entry.1 ∈ vars ∧ entry.2 ∉ vars) : renames.LeadsOut vars :=
  fun _ renamed => entries _ (mem_of_apply_ne renamed)

namespace Expr

theorem renameList_eq (renames : Renaming) (es : List Expr) :
    renameList renames es = es.map (rename renames) := by
  induction es with
  | nil => rfl
  | cons e es ih => rw [renameList, List.map_cons, ih]

mutual
theorem occurrences_rename (renames : Renaming) (e : Expr) :
    (e.rename renames).occurrences = e.occurrences.map renames.apply := by
  cases e with
  | const value => rfl
  | var v => rfl
  | call f args hints => exact occurrencesList_rename renames args

theorem occurrencesList_rename (renames : Renaming) (es : List Expr) :
    occurrencesList (renameList renames es) = (occurrencesList es).map renames.apply := by
  cases es with
  | nil => rfl
  | cons e es =>
    rw [renameList, occurrencesList, occurrencesList, occurrences_rename renames e,
      occurrencesList_rename renames es, List.map_append]
end

mutual
theorem conjuncts_rename (renames : Renaming) (e : Expr) :
    (e.rename renames).conjuncts = renameList renames e.conjuncts := by
  cases e with
  | const value => rfl
  | var v => rfl
  | call f args hints =>
    cases f with
    | and => exact conjunctsList_rename renames args
    | _ => rfl

theorem conjunctsList_rename (renames : Renaming) (es : List Expr) :
    conjunctsList (renameList renames es) = renameList renames (conjunctsList es) := by
  cases es with
  | nil => rfl
  | cons e es =>
    rw [renameList, conjunctsList, conjunctsList, conjuncts_rename renames e,
      conjunctsList_rename renames es, renameList_eq, renameList_eq, renameList_eq,
      List.map_append]
end

theorem length_conjuncts_rename (renames : Renaming) (e : Expr) :
    (e.rename renames).conjuncts.length = e.conjuncts.length := by
  rw [conjuncts_rename, renameList_eq, List.length_map]

mutual
/-- A conjunct is no conjunction. -/
theorem conjuncts_of_mem {e c : Expr} (member : c ∈ e.conjuncts) : c.conjuncts = [c] := by
  cases e with
  | const value => cases List.mem_singleton.mp member; rfl
  | var v => cases List.mem_singleton.mp member; rfl
  | call f args hints =>
    cases f with
    | and => exact conjunctsList_of_mem member
    | _ => cases List.mem_singleton.mp member; rfl

theorem conjunctsList_of_mem {es : List Expr} {c : Expr} (member : c ∈ conjunctsList es) :
    c.conjuncts = [c] := by
  cases es with
  | nil => cases member
  | cons e es =>
    rcases List.mem_append.mp member with first | rest
    · exact conjuncts_of_mem first
    · exact conjunctsList_of_mem rest
end

end Expr

/-- Fewer elements count if they are asked for more, and one does not pass. -/
theorem countP_lt_of_imp {α : Type} {p q : α → Bool} {l : List α} (imp : ∀ a, p a = true → q a = true)
    {a : α} (member : a ∈ l) (passes : q a = true) (fails : p a = false) :
    l.countP p < l.countP q := by
  obtain ⟨before, after, rfl⟩ := List.append_of_mem member
  have first : before.countP p ≤ before.countP q := List.countP_mono_left fun a _ => imp a
  have last : after.countP p ≤ after.countP q := List.countP_mono_left fun a _ => imp a
  rw [List.countP_append, List.countP_append, List.countP_cons_of_pos passes,
    List.countP_cons_of_neg (by simp [fails])]
  omega

namespace Operator

variable {op : Operator}

/-- The variables that are read, as often as they are read. -/
def reads : Operator → List Var
  | project vars | distinct vars => vars
  | unionAll columns => columns.flatMap fun c => [c.left, c.right]
  | script _ inputs _ => inputs
  | op => Expr.occurrencesList op.exprs

theorem mem_used_iff {v : Var} : v ∈ op.used ↔ v ∈ op.reads := by
  cases op <;> simp [used, reads, Expr.usedVarsOf]

theorem exprs_rename (renames : Renaming) (op : Operator) :
    (op.rename renames).exprs = op.exprs.map (Expr.rename renames) := by
  cases op with
  | project => rw [rename]; split <;> rfl
  | distinct => rw [rename]; split <;> rfl
  | _ => simp [rename, exprs, rename.pairs, Expr.renameList_eq, Function.comp_def]

/-- A renamed operator reads the renamed variables. Columns that get one name count once. -/
theorem countP_reads_rename (isRenamed : op.isRenamedBy renames = true) (p : Var → Bool) :
    (op.rename renames).reads.countP p ≤ (op.reads.map renames.apply).countP p := by
  have fewer : ∀ vs : List Var, (QueryOptimizer.distinct vs).countP p ≤ vs.countP p := fun vs =>
    ((nodup_distinct vs).subperm fun v member => mem_distinct.mp member).countP_le p
  have same : ∀ es, Expr.occurrencesList (es.map (Expr.rename renames)) =
      (Expr.occurrencesList es).map renames.apply := fun es => by
    rw [← Expr.renameList_eq, Expr.occurrencesList_rename]
  cases op with
  | project vs =>
    rw [rename, if_pos isRenamed]
    exact fewer _
  | distinct vs =>
    rw [rename, if_pos isRenamed]
    exact fewer _
  | unionAll columns => simp [rename, reads, List.flatMap_map, List.map_flatMap]
  | script => exact Nat.le_refl _
  | _ => exact (congrArg (List.countP p) ((congrArg _ (exprs_rename renames _)).trans (same _))).le

theorem countP_reads_rename_lt (out : renames.LeadsOut vars)
    (isRenamed : op.isRenamedBy renames = true) :
    (op.rename renames).reads.countP (· ∈ vars) < op.reads.countP (· ∈ vars) := by
  refine Nat.lt_of_le_of_lt (countP_reads_rename isRenamed _) ?_
  rw [List.countP_map]
  obtain ⟨v, isRead, changes⟩ := List.any_eq_true.mp isRenamed
  have changes : renames.apply v ≠ v := by simpa using changes
  refine countP_lt_of_imp (fun w inside => ?_) (mem_used_iff.mp isRead)
    (decide_eq_true (out v changes).1) (decide_eq_false (out v changes).2)
  by_contra outside
  have kept : renames.apply w = w := by
    by_contra changed
    exact outside (decide_eq_true (out w changed).1)
  exact outside (kept ▸ inside)

/-- The variables that an operator assigns from other variables and that need not be kept. -/
def copies (kept : VarSet) : Operator → List Var
  | assign vars exprs =>
    (vars.zip exprs).filterMap fun a =>
      match a.2 with
      | .var source => if source ≠ a.1 && decide (a.1 ∉ kept) then some a.1 else none
      | _ => none
  | _ => []

theorem mem_copies_assign {vs : List Var} {es : List Expr} {v : Var} :
    v ∈ (assign vs es).copies kept ↔
      ∃ source, (v, .var source) ∈ vs.zip es ∧ source ≠ v ∧ v ∉ kept := by
  simp only [copies, List.mem_filterMap]
  constructor
  · rintro ⟨⟨w, e⟩, member, found⟩
    cases e with
    | var source =>
      simp only [Option.ite_none_right_eq_some, Bool.and_eq_true, decide_eq_true_eq,
        Option.some.injEq] at found
      obtain ⟨⟨other, free⟩, rfl⟩ := found
      exact ⟨source, member, other, free⟩
    | const => cases found
    | call => cases found
  · rintro ⟨source, member, other, free⟩
    exact ⟨(v, .var source), member, by simp [other, free]⟩

/-- A renaming that leads out of a set makes no variables copies that are not in the set. -/
theorem copies_rename (out : renames.LeadsOut vars) (inside : ∀ v ∈ op.copies kept, v ∈ vars)
    {v : Var} (member : v ∈ (op.rename renames).copies kept) : v ∈ vars := by
  cases op with
  | assign vs es =>
    obtain ⟨source, paired, other, free⟩ := mem_copies_assign.mp member
    rw [Expr.renameList_eq, List.zip_map_right, List.mem_map] at paired
    obtain ⟨⟨w, e⟩, paired, same⟩ := paired
    obtain ⟨rfl, named⟩ : w = v ∧ e.rename renames = .var source := by simpa using same
    cases e with
    | var source' =>
      cases named
      by_cases isSelf : source' = w
      · rw [isSelf] at other
        exact (out w other).1
      · exact inside w (mem_copies_assign.mpr ⟨source', paired, isSelf, free⟩)
    | const => cases named
    | call => cases named
  | project => rw [rename] at member; split at member <;> cases member
  | distinct => rw [rename] at member; split at member <;> cases member
  | _ => cases member

end Operator

theorem Session.mem_inlineable {s : Session} {v : Var} : v ∈ s.inlineable ↔
    ∃ n, s.plan.Reaches n ∧ v ∈ (s.plan.operator n).copies s.context.kept := by
  have same : s.inlineable = .ofList (s.plan.reachable.flatMap fun id =>
      (s.plan.operator id).copies s.context.kept) := rfl
  rw [same, VarSet.mem_ofList, List.mem_flatMap]
  exact ⟨fun ⟨n, member, found⟩ => ⟨n, Plan.reaches_of_mem_reachable member, found⟩,
    fun ⟨n, reached, found⟩ => ⟨n, Plan.mem_reachable reached, found⟩⟩

/-! ## Deriving facts on the way -/

/-- What stays true of a session while facts are derived: schemas are computed, keys of group-bys
    become decorations, and facts are noted. -/
structure StaysWithFacts (P : Session → Prop) : Prop where
  schemas : ∀ {s plan}, s.plan.OnlySchemas plan → P s → P (s.withPlan plan)
  regroup : ∀ {s id keys decor nested keys' decor'}, s.plan.operator id = .groupBy keys decor nested →
    (keys' ++ decor').Perm (keys ++ decor) → P s →
    P (s.withPlan (s.plan.setOperator id (.groupBy keys' decor' nested)))
  note : ∀ {s id facts}, P s → P (s.mapContext (·.setFacts id facts))

namespace StaysWithFacts

variable {P : Session → Prop} (stays : StaysWithFacts P) {s s' : Session} {id : NodeId}

include stays

theorem simplifyGroupBy (holds : P s) (done : s.simplifyGroupBy id = .ok s') : P s' := by
  rcases Session.simplifyGroupBy_cases done with ⟨rfl, _⟩ | ⟨keys, decor, nested, facts, shape, _, _, done⟩
  · exact holds
  · obtain ⟨plan, refreshed, rfl⟩ := Session.refreshSchemas_ok done
    exact stays.schemas (Plan.refreshSchemas_only refreshed)
      (stays.regroup shape (facts.perm_splitKeys_decor keys decor) holds)

theorem ensureFactsWithin {fuel : Nat} (holds : P s)
    (done : Session.ensureFactsWithin fuel s id = .ok s') : P s' :=
  Session.ensureFactsWithin_keeps (R := fun _ => True) (fun _ _ _ _ => trivial)
    (fun holds _ => stays.simplifyGroupBy holds) (fun holds _ _ => stays.note holds) holds trivial done

theorem facts {facts : Facts} (holds : P s) (done : s.facts id = .ok (s', facts)) : P s' :=
  stays.ensureFactsWithin holds (Session.facts_ok done).1

end StaysWithFacts

namespace Session

variable {P : Session → Prop} {s s' : Session}

theorem replacement?_some {facts : Facts} {visible : List Var} {v w : Var}
    (replaced : replacement? facts vars visible v = some w) :
    w ∈ facts.equivalence.membersOf v ∧ w ∈ visible ∧ w ∉ vars := by
  have chosen := List.find?_some replaced
  simp only [Bool.and_eq_true, decide_eq_true_eq] at chosen
  exact ⟨List.mem_of_find?_eq_some replaced, chosen.1.2, chosen.2⟩

section Replacing

variable {Q : Var × Var → Prop} {input : NodeId}

/-- What deriving facts about an input keeps, and what is true of the replacements that they give. -/
def Replaces (vars : VarSet) (P : Session → Prop) (Q : Var × Var → Prop) (input : NodeId) : Prop :=
  ∀ {s s' facts}, P s → s.facts input = .ok (s', facts) → P s' ∧
    ∀ visible v w, s.plan.schema input = .ok visible → v ∈ vars → v ∈ visible →
      replacement? facts vars visible v = some w → Q (v, w)

theorem inputRenames_ok {used : List Var} {renames' : Renaming} (replaces : Replaces vars P Q input)
    (holds : P s) (entries : ∀ entry ∈ renames, Q entry)
    (done : Session.inputRenames vars used (s, renames) input = .ok (s', renames')) :
    P s' ∧ ∀ entry ∈ renames', Q entry := by
  obtain ⟨visible, schema, done⟩ := bind_ok_iff.mp done
  dsimp only at done
  split at done
  · cases pure_ok_iff.mp done
    exact ⟨holds, entries⟩
  · obtain ⟨⟨s₁, facts⟩, derived, done⟩ := bind_ok_iff.mp done
    cases pure_ok_iff.mp done
    obtain ⟨holds₁, new⟩ := replaces holds derived
    refine ⟨holds₁, fun entry member => ?_⟩
    rcases List.mem_append.mp member with old | added
    · exact entries entry old
    · obtain ⟨v, pending, found⟩ := List.mem_filterMap.mp added
      obtain ⟨w, replaced, rfl⟩ := Option.map_eq_some_iff.mp found
      have inside := (List.mem_filter.mp pending).2
      simp only [Bool.and_eq_true, decide_eq_true_eq] at inside
      exact new visible v w schema inside.1.1 inside.1.2 replaced

/-- Inlining derives facts about the inputs of the node, and renames variables of the node or leaves it
    as it is. -/
theorem inlineAt_cases {slot : Slot} {fired : Bool} (holds : P s)
    (replaces : ∀ {id input}, s.plan.nodeAt slot = .ok id → input ∈ s.plan.inputs id →
      Replaces vars P Q input)
    (done : s.inlineAt vars slot = .ok (s', fired)) :
    fired = false ∧ P s' ∨ fired = true ∧ vars.isEmpty = false ∧ ∃ s₁ id renames,
      s.plan.nodeAt slot = .ok id ∧ P s₁ ∧ (∀ entry ∈ renames, Q entry) ∧
      (s₁.plan.operator id).isRenamedBy renames = true ∧
      s' = s₁.withPlan (s₁.plan.setOperator id ((s₁.plan.operator id).rename renames)) := by
  unfold Session.inlineAt at done
  split at done
  · cases done
    exact .inl ⟨rfl, holds⟩
  rename_i some
  obtain ⟨id, here, done⟩ := bind_ok_iff.mp done
  dsimp only at done
  split at done
  · cases pure_ok_iff.mp done
    exact .inl ⟨rfl, holds⟩
  obtain ⟨⟨s₁, renames⟩, collected, done⟩ := bind_ok_iff.mp done
  obtain ⟨holds₁, entries⟩ := foldlM_keeps
    (fun acc : Session × Renaming => P acc.1 ∧ ∀ entry ∈ acc.2, Q entry)
    (fun _ member _ _ both => inputRenames_ok (replaces here member) both.1 both.2) ⟨holds, by simp⟩
    collected
  dsimp only at done
  split at done
  · rename_i renamed
    cases pure_ok_iff.mp done
    exact .inr ⟨rfl, by simpa using some, s₁, id, renames, here, holds₁, entries, renamed, rfl⟩
  · cases pure_ok_iff.mp done
    exact .inl ⟨rfl, holds₁⟩

end Replacing

theorem inlineAt_ok {slot : Slot} {fired : Bool} (holds : P s)
    (stays : ∀ {id input}, s.plan.nodeAt slot = .ok id → input ∈ s.plan.inputs id →
      ∀ {t t' facts}, P t → t.facts input = .ok (t', facts) → P t')
    (done : s.inlineAt vars slot = .ok (s', fired)) :
    fired = false ∧ P s' ∨ fired = true ∧ vars.isEmpty = false ∧ ∃ s₁ id renames, P s₁ ∧
      renames.LeadsOut vars ∧ (s₁.plan.operator id).isRenamedBy renames = true ∧
      s' = s₁.withPlan (s₁.plan.setOperator id ((s₁.plan.operator id).rename renames)) := by
  have replaces : ∀ {id input}, s.plan.nodeAt slot = .ok id → input ∈ s.plan.inputs id →
      Replaces vars P (fun entry => entry.1 ∈ vars ∧ entry.2 ∉ vars) input :=
    fun here member _ _ _ holds derived => ⟨stays here member holds derived,
      fun _ _ _ _ isVar _ replaced => ⟨isVar, (replacement?_some replaced).2.2⟩⟩
  rcases inlineAt_cases holds replaces done with unchanged |
    ⟨fired, some, s₁, id, renames, _, holds₁, entries, renamed, changed⟩
  · exact .inl unchanged
  · exact .inr ⟨fired, some, s₁, id, renames, holds₁, Renaming.leadsOut_of_entries entries, renamed,
      changed⟩

end Session

end QueryOptimizer
