import Mathlib
import QueryOptimizer.Proofs.Relational.Consolidation

/-! # Plans without some assignments

A plan is pruned if assignments of some variables are dropped: nodes with no other assignments are
passed over, and other nodes assign less. If nobody reads these variables, the plan stays valid. All
nodes have the columns that they had, but for the dropped variables.
-/

namespace QueryOptimizer

/-! ## Lists of variables -/

/-- Whether a list is another one without some of the dropped variables. -/
structure Fewer (dropped vs ws : List Var) : Prop where
  same : (ws.filter fun v => decide (v ∉ dropped)) = vs.filter fun v => decide (v ∉ dropped)
  subset : ∀ v ∈ ws, v ∈ vs

namespace Fewer

variable {dropped vs vs' ws ws' us : List Var} {v : Var}

theorem refl (dropped vs : List Var) : Fewer dropped vs vs := ⟨rfl, fun _ member => member⟩

theorem trans (first : Fewer dropped vs ws) (second : Fewer dropped ws us) : Fewer dropped vs us :=
  ⟨second.same.trans first.same, fun v member => first.subset v (second.subset v member)⟩

theorem mem_iff (fewer : Fewer dropped vs ws) (kept : v ∉ dropped) : v ∈ ws ↔ v ∈ vs := by
  have listed : ∀ us : List Var, v ∈ us ↔ v ∈ us.filter fun v => decide (v ∉ dropped) := by
    intro us
    simp [kept]
  rw [listed ws, listed vs, fewer.same]

theorem eq_of_kept (fewer : Fewer dropped vs ws) (kept : ∀ v ∈ vs, v ∉ dropped) : ws = vs := by
  have all : ∀ us : List Var, (∀ v ∈ us, v ∈ vs) → us.filter (fun v => decide (v ∉ dropped)) = us :=
    fun us inside => List.filter_eq_self.mpr fun v member => decide_eq_true (kept v (inside v member))
  rw [← all ws fewer.subset, fewer.same, all vs fun _ member => member]

theorem append (first : Fewer dropped vs ws) (second : Fewer dropped vs' ws') :
    Fewer dropped (vs ++ vs') (ws ++ ws') := by
  refine ⟨?_, fun v member => ?_⟩
  · rw [List.filter_append, List.filter_append, first.same, second.same]
  · rcases List.mem_append.mp member with left | right
    · exact List.mem_append_left _ (first.subset v left)
    · exact List.mem_append_right _ (second.subset v right)

theorem flatten {lists lists' : List (List Var)} (each : List.Forall₂ (Fewer dropped) lists lists') :
    Fewer dropped lists.flatten lists'.flatten := by
  induction each with
  | nil => exact .refl _ _
  | cons first _ ih => exact first.append ih

theorem filter_appendNew (p : Var → Bool) (vs ws : List Var) :
    (appendNew vs ws).filter p = appendNew (vs.filter p) (ws.filter p) := by
  induction ws generalizing vs with
  | nil => rfl
  | cons w ws ih =>
    have step : ∀ us us' : List Var, appendNew us (w :: us') =
        appendNew (if w ∈ us then us else us ++ [w]) us' := fun _ _ => rfl
    rw [step, ih]
    by_cases kept : p w = true
    · rw [List.filter_cons_of_pos kept, step]
      by_cases listed : w ∈ vs
      · rw [if_pos listed, if_pos (List.mem_filter.mpr ⟨listed, kept⟩)]
      · rw [if_neg listed, if_neg fun inside => listed (List.mem_filter.mp inside).1,
          List.filter_append, List.filter_cons_of_pos kept, List.filter_nil]
    · rw [List.filter_cons_of_neg kept]
      split
      · rfl
      · rw [List.filter_append, List.filter_cons_of_neg kept, List.filter_nil, List.append_nil]

theorem appendNew (first : Fewer dropped vs ws) (second : Fewer dropped vs' ws') :
    Fewer dropped (appendNew vs vs') (appendNew ws ws') := by
  refine ⟨?_, fun v member => ?_⟩
  · rw [filter_appendNew, filter_appendNew, first.same, second.same]
  · rw [mem_appendNew] at member ⊢
    exact member.imp (first.subset v) (second.subset v)

theorem nil (gone : ∀ v ∈ vs, v ∈ dropped) : Fewer dropped vs [] := by
  refine ⟨?_, fun v impossible => by cases impossible⟩
  rw [List.filter_nil, eq_comm, List.filter_eq_nil_iff]
  intro v member
  simpa using gone v member

/-- Entries of dropped variables may be left out. -/
theorem map_filter {entries : List (Var × Expr)} {keeps : Var × Expr → Bool}
    (gone : ∀ entry ∈ entries, keeps entry = false → entry.1 ∈ dropped) :
    Fewer dropped (entries.map (·.1)) ((entries.filter keeps).map (·.1)) := by
  refine ⟨?_, fun v member => ?_⟩
  · rw [List.filter_map, List.filter_map, List.filter_filter]
    refine congrArg _ (List.filter_congr fun entry member => ?_)
    cases kept : keeps entry with
    | true => exact Bool.and_true _
    | false => simp [gone entry member kept]
  · obtain ⟨entry, kept, rfl⟩ := List.mem_map.mp member
    exact List.mem_map.mpr ⟨entry, (List.mem_filter.mp kept).1, rfl⟩

end Fewer

/-! ## Operators -/

namespace Operator

variable {dropped : List Var} {op op' op'' : Operator} {v : Var}

/-- The variables that an assignment gives values to. -/
def assigned : Operator → List Var
  | assign vars _ => vars
  | _ => []

/-- Whether an operator keeps its tuples to itself, so that nobody reads its columns. -/
def Consumes : Operator → Prop
  | write .. | insertDelete .. | sink => True
  | _ => False

/-- Operators that differ in their nested roots, or in assignments of dropped variables. -/
def Prunes (dropped : List Var) (op op' : Operator) : Prop :=
  (∃ nested, op' = op.mapNested fun _ => nested) ∨
  ∃ (entries : List (Var × Expr)) (keeps : Var × Expr → Bool),
    op = .assign (entries.map (·.1)) (entries.map (·.2)) ∧
    op' = .assign ((entries.filter keeps).map (·.1)) ((entries.filter keeps).map (·.2)) ∧
    ∀ entry ∈ entries, keeps entry = false → entry.1 ∈ dropped

theorem Prunes.refl (dropped : List Var) (op : Operator) : op.Prunes dropped op := by
  refine .inl ⟨op.nested, ?_⟩
  cases op <;> rfl

@[simp]
theorem used_mapNested (op : Operator) (f : NestedPlans → NestedPlans) :
    (op.mapNested f).used = op.used := by
  cases op <;> rfl

theorem mapNested_restore (op : Operator) (nested : NestedPlans) :
    ((op.mapNested fun _ => nested).mapNested fun _ => op.nested) = op := by
  cases op <;> rfl

theorem mapNested_of_assign {vars : List Var} {exprs : List Expr} {f : NestedPlans → NestedPlans}
    (same : op.mapNested f = .assign vars exprs) : op = .assign vars exprs := by
  cases op <;> first | exact same | cases same

namespace Prunes

variable (prunes : op.Prunes dropped op')

include prunes

theorem mono {more : List Var} (larger : ∀ v ∈ dropped, v ∈ more) : op.Prunes more op' := by
  rcases prunes with same | ⟨entries, keeps, before, after, gone⟩
  · exact .inl same
  · exact .inr ⟨entries, keeps, before, after,
      fun entry member lost => larger _ (gone entry member lost)⟩

theorem trans {more : List Var} (later : op'.Prunes more op'') : op.Prunes (dropped ++ more) op'' := by
  rcases prunes with ⟨nested, rfl⟩ | ⟨entries, keeps, rfl, rfl, gone⟩ <;>
    rcases later with ⟨nested', rfl⟩ | ⟨entries', keeps', before, rfl, gone'⟩
  · refine .inl ⟨nested', ?_⟩
    cases op <;> rfl
  · obtain rfl := mapNested_of_assign before
    exact .inr ⟨entries', keeps', rfl, rfl, fun entry member lost =>
      List.mem_append_right _ (gone' entry member lost)⟩
  · exact .inr ⟨entries, keeps, rfl, rfl, fun entry member lost =>
      List.mem_append_left _ (gone entry member lost)⟩
  · obtain ⟨sameVars, sameExprs⟩ := Operator.assign.inj before
    obtain rfl : entries.filter keeps = entries' := by
      rw [← List.zip_unzip (entries.filter keeps), ← List.zip_unzip entries']
      simp only [List.unzip_eq_map]
      exact congrArg₂ List.zip sameVars sameExprs
    refine .inr ⟨entries, fun entry => keeps' entry && keeps entry, rfl, ?_, ?_⟩
    · rw [List.filter_filter]
    · intro entry member (lost : (keeps' entry && keeps entry) = false)
      by_cases kept : keeps entry = true
      · rw [kept, Bool.and_true] at lost
        exact List.mem_append_right _ (gone' entry (List.mem_filter.mpr ⟨member, kept⟩) lost)
      · exact List.mem_append_left _ (gone entry member (Bool.not_eq_true _ ▸ kept))

theorem nestedSource_iff {owner : NodeId} : op' = .nestedSource owner ↔ op = .nestedSource owner := by
  rcases prunes with ⟨nested, rfl⟩ | ⟨entries, keeps, rfl, rfl, _⟩
  · cases op <;> simp [mapNested]
  · simp

theorem consumes_iff : op'.Consumes ↔ op.Consumes := by
  rcases prunes with ⟨nested, rfl⟩ | ⟨entries, keeps, rfl, rfl, _⟩
  · cases op <;> rfl
  · rfl

theorem used_subset (read : v ∈ op'.used) : v ∈ op.used := by
  rcases prunes with ⟨nested, rfl⟩ | ⟨entries, keeps, rfl, rfl, _⟩
  · rwa [used_mapNested] at read
  · simp only [used, exprs, Expr.usedVarsOf, mem_distinct, Expr.occurrencesList_eq,
      List.flatMap_map, List.mem_flatMap] at read ⊢
    obtain ⟨entry, kept, occurs⟩ := read
    exact ⟨entry, (List.mem_filter.mp kept).1, occurs⟩

/-- An assignment stays one, with some of its entries. -/
theorem entries {vars : List Var} {exprs : List Expr} (assigns : op' = .assign vars exprs)
    (matched : ∀ vars exprs, op = .assign vars exprs → exprs.length = vars.length) :
    ∃ (entries : List (Var × Expr)) (keeps : Var × Expr → Bool),
      op = .assign (entries.map (·.1)) (entries.map (·.2)) ∧
      vars = (entries.filter keeps).map (·.1) ∧ exprs = (entries.filter keeps).map (·.2) ∧
      ∀ entry ∈ entries, keeps entry = false → entry.1 ∈ dropped := by
  rcases prunes with ⟨nested, rfl⟩ | ⟨entries, keeps, before, after, gone⟩
  · obtain rfl := mapNested_of_assign assigns
    have length := matched vars exprs rfl
    refine ⟨vars.zip exprs, fun _ => true, ?_, ?_, ?_, fun _ _ impossible => by cases impossible⟩
    · rw [List.map_fst_zip length.ge, List.map_snd_zip length.le]
    · rw [List.filter_true, List.map_fst_zip length.ge]
    · rw [List.filter_true, List.map_snd_zip length.le]
  · obtain ⟨rfl, rfl⟩ := Operator.assign.inj (assigns.symm.trans after)
    exact ⟨entries, keeps, before, rfl, rfl, gone⟩

theorem produced_subset (isProduced : v ∈ op'.produced) : v ∈ op.produced := by
  rcases prunes with ⟨nested, rfl⟩ | ⟨entries, keeps, rfl, rfl, gone⟩
  · cases op <;> exact isProduced
  · exact (Fewer.map_filter gone).subset v isProduced

theorem assigned_subset (isAssigned : v ∈ op'.assigned) : v ∈ op.assigned := by
  rcases prunes with ⟨nested, rfl⟩ | ⟨entries, keeps, rfl, rfl, gone⟩
  · cases op <;> exact isAssigned
  · exact (Fewer.map_filter gone).subset v isAssigned

/-- If only dropped variables are left of an assignment, then it was one of dropped variables. -/
theorem assign_dropped {vars : List Var} {exprs : List Expr} (assigns : op' = .assign vars exprs)
    (gone : ∀ v ∈ vars, v ∈ dropped) :
    ∃ vars exprs, op = .assign vars exprs ∧ ∀ v ∈ vars, v ∈ dropped := by
  rcases prunes with ⟨nested, rfl⟩ | ⟨entries, keeps, rfl, rfl, before⟩
  · exact ⟨vars, exprs, mapNested_of_assign assigns, gone⟩
  · obtain ⟨rfl, rfl⟩ := Operator.assign.inj assigns
    refine ⟨_, _, rfl, fun v member => ?_⟩
    obtain ⟨entry, inside, rfl⟩ := List.mem_map.mp member
    by_cases kept : keeps entry = true
    · exact gone _ (List.mem_map_of_mem (List.mem_filter.mpr ⟨inside, kept⟩))
    · exact before entry inside (Bool.not_eq_true _ ▸ kept)

/-- What an assignment produces is assigned. -/
theorem assigned_of_produced (isAssigned : v ∈ op.assigned) (isProduced : v ∈ op'.produced) :
    v ∈ op'.assigned := by
  rcases prunes with ⟨nested, rfl⟩ | ⟨entries, keeps, rfl, rfl, _⟩
  · cases op with
    | assign => exact isProduced
    | _ => cases isAssigned
  · exact isProduced

variable {inputs inputs' nested nested' : List (List Var)}

omit prunes in
theorem fewer_schema (op : Operator) (fewerInputs : List.Forall₂ (Fewer dropped) inputs inputs')
    (fewerNested : List.Forall₂ (Fewer dropped) nested nested') :
    Fewer dropped (op.schema inputs nested) (op.schema inputs' nested') := by
  have flat := Fewer.flatten fewerInputs
  have nestedFlat := Fewer.flatten fewerNested
  have head : Fewer dropped (inputs.headD []) (inputs'.headD []) := by
    cases fewerInputs with
    | nil => exact .refl _ _
    | cons first _ => exact first
  cases op with
  | join => exact flat
  | groupBy => exact nestedFlat.appendNew (.refl _ _)
  | subplan => exact flat.appendNew nestedFlat
  | scan | assign | runningAggregate | unnest => exact flat.appendNew (.refl _ _)
  | select | order | limit | exchange | replicate | write | insertDelete | sink => exact head
  | project | distinct | emptySource | nestedSource | aggregate | unionAll | script => exact .refl _ _

theorem schema (fewerInputs : List.Forall₂ (Fewer dropped) inputs inputs')
    (fewerNested : List.Forall₂ (Fewer dropped) nested nested') :
    Fewer dropped (op.schema inputs nested) (op'.schema inputs' nested') := by
  have fewer := fewer_schema op fewerInputs fewerNested
  rcases prunes with ⟨roots, rfl⟩ | ⟨entries, keeps, rfl, rfl, gone⟩
  · cases op <;> exact fewer
  · exact (Fewer.flatten fewerInputs).appendNew (.map_filter gone)

end Prunes

end Operator

/-! ## Plans -/

namespace Plan

variable {start plan plan' mid : Plan} {dropped : List Var} {slot : Slot} {id n m x : NodeId} {v : Var}

/-- The variables that reachable assignments give values to. -/
def assigned (plan : Plan) : List Var :=
  plan.reachable.flatMap fun id => (plan.operator id).assigned

theorem mem_flatMap_reachable {f : NodeId → List Var} :
    v ∈ plan.reachable.flatMap f ↔ ∃ n, plan.Reaches n ∧ v ∈ f n := by
  rw [List.mem_flatMap]
  exact exists_congr fun n => and_congr_left fun _ => ⟨reaches_of_mem_reachable, mem_reachable⟩

theorem mem_assigned : v ∈ plan.assigned ↔ ∃ n, plan.Reaches n ∧ v ∈ (plan.operator n).assigned :=
  mem_flatMap_reachable

/-- Whether a node can be passed over for its input, since it assigns dropped variables only. -/
def PassesTo (plan : Plan) (dropped : List Var) (n c : NodeId) : Prop :=
  ∃ vars exprs, plan.operator n = .assign vars exprs ∧ (∀ v ∈ vars, v ∈ dropped) ∧
    plan.inputs n = [c]

/-- Whether a node is another one, or what is left of it when nodes are passed over. -/
def LeadsTo (plan : Plan) (dropped : List Var) : NodeId → NodeId → Prop :=
  Relation.ReflTransGen (plan.PassesTo dropped)

theorem LeadsTo.mono {more : List Var} (larger : ∀ v ∈ dropped, v ∈ more)
    (leads : plan.LeadsTo dropped n m) : plan.LeadsTo more n m :=
  Relation.ReflTransGen.mono (fun _ _ ⟨vars, exprs, operator, gone, inputs⟩ =>
    ⟨vars, exprs, operator, fun v member => larger v (gone v member), inputs⟩) _ _ leads

theorem LeadsTo.reaches (leads : plan.LeadsTo dropped n m) (reached : plan.Reaches n) :
    plan.Reaches m := by
  induction leads with
  | refl => exact reached
  | tail _ passes ih =>
    obtain ⟨_, _, _, _, inputs⟩ := passes
    exact ih.input (inputs ▸ List.mem_singleton_self _)

/-- A node has the columns of one that can be passed over, but for the dropped variables. -/
theorem LeadsTo.columns (leads : plan.LeadsTo dropped n m) (current : plan.SchemasCurrent)
    (reached : plan.Reaches n) : Fewer dropped (plan.columns n) (plan.columns m) := by
  induction leads with
  | refl => exact .refl _ _
  | @tail b c earlier passes ih =>
    obtain ⟨vars, exprs, operator, gone, inputs⟩ := passes
    have reachedB : plan.Reaches b := LeadsTo.reaches earlier reached
    refine ih.trans ?_
    rw [current.columns_assign reachedB operator inputs]
    exact (Fewer.refl dropped (plan.columns c)).appendNew (.nil gone)

/-- A plan in which some assignments were dropped. -/
structure Pruned (start : Plan) (dropped : List Var) (plan : Plan) : Prop where
  root : plan.root = start.root
  assigned : ∀ v ∈ dropped, v ∈ start.assigned
  operator : ∀ n, plan.Reaches n → (start.operator n).Prunes dropped (plan.operator n)
  inputs : ∀ n, plan.Reaches n →
    List.Forall₂ (start.LeadsTo dropped) (start.inputs n) (plan.inputs n)
  nestedRoots : ∀ n, plan.Reaches n →
    List.Forall₂ (start.LeadsTo dropped) (start.nestedRoots n) (plan.nestedRoots n)

namespace Pruned

theorem refl (start : Plan) : start.Pruned [] start where
  root := rfl
  assigned v impossible := by cases impossible
  operator n _ := .refl _ _
  inputs n _ := List.forall₂_same.mpr fun _ _ => .refl
  nestedRoots n _ := List.forall₂_same.mpr fun _ _ => .refl

/-- A node that assigns dropped variables only is passed over in one slot. -/
theorem of_rewired (rewired : plan.Rewired slot id x plan') (below : slot ≠ .root)
    (passes : plan.PassesTo dropped id x) (assigned : ∀ v ∈ dropped, v ∈ plan.assigned) :
    plan.Pruned dropped plan' := by
  have leads : ∀ c c', Replaces id x c c' → plan.LeadsTo dropped c c' := by
    rintro c c' (rfl | ⟨rfl, rfl⟩)
    · exact .refl
    · exact .single passes
  refine ⟨rewired.sameRoot below, assigned, fun n _ => ?_, fun n _ => ?_, fun n _ => ?_⟩
  · obtain ⟨nested, changed, _⟩ := rewired.operator n
    exact .inl ⟨nested, changed⟩
  · exact (rewired.inputs n).imp leads
  · exact (rewired.nestedRoots n).imp leads

/-- The operator of one node is pruned. -/
theorem setOperator {op : Operator} (prunes : (plan.operator id).Prunes dropped op)
    (resembles : (plan.operator id).Resembles op) (assigned : ∀ v ∈ dropped, v ∈ plan.assigned) :
    plan.Pruned dropped (plan.setOperator id op) := by
  refine ⟨rfl, assigned, fun n _ => ?_, fun n _ => ?_, fun n _ => ?_⟩
  · rcases operator_setOperator_cases plan id n op with same | ⟨rfl, changed⟩
    · rw [same]
      exact .refl _ _
    · rw [changed]
      exact prunes
  · rw [inputs_setOperator]
    exact List.forall₂_same.mpr fun _ _ => .refl
  · rw [(Redrawn.setOperator plan id resembles).nestedRoots]
    exact List.forall₂_same.mpr fun _ _ => .refl

variable (pruned : start.Pruned dropped plan)

include pruned

theorem reaches (reached : plan.Reaches n) : start.Reaches n := by
  unfold Reaches at reached
  rw [pruned.root] at reached
  have both : plan.Reaches n ∧ start.Reaches n := by
    induction reached with
    | refl => exact ⟨pruned.root ▸ .refl, .refl⟩
    | @tail parent child _ member ih =>
      obtain ⟨reachedHere, reachedStart⟩ := ih
      refine ⟨reachedHere.child member, ?_⟩
      rcases List.mem_append.mp member with isInput | isRoot
      · obtain ⟨c, inside, leads⟩ := exists_replaced (pruned.inputs parent reachedHere) isInput
        exact leads.reaches (reachedStart.input inside)
      · obtain ⟨c, inside, leads⟩ := exists_replaced (pruned.nestedRoots parent reachedHere) isRoot
        exact leads.reaches (reachedStart.nestedRoot inside)
  exact both.2

/-- Only the operators and inputs of reachable nodes matter. -/
theorem transfer (root : plan'.root = plan.root) (reaches : ∀ n, plan'.Reaches n → plan.Reaches n)
    (operator : ∀ n, plan'.Reaches n → plan'.operator n = plan.operator n)
    (inputs : ∀ n, plan'.Reaches n → plan'.inputs n = plan.inputs n) :
    start.Pruned dropped plan' where
  root := root.trans pruned.root
  assigned := pruned.assigned
  operator n reached := by
    rw [operator n reached]
    exact pruned.operator n (reaches n reached)
  inputs n reached := by
    rw [inputs n reached]
    exact pruned.inputs n (reaches n reached)
  nestedRoots n reached := by
    have same : plan'.nestedRoots n = plan.nestedRoots n := by
      unfold Plan.nestedRoots
      rw [operator n reached]
    rw [same]
    exact pruned.nestedRoots n (reaches n reached)

/-- A node that can be passed over could be passed over before. -/
theorem leadsTo {more : List Var} (leads : plan.LeadsTo more n m) (reached : plan.Reaches n) :
    start.LeadsTo (dropped ++ more) n m := by
  induction leads with
  | refl => exact .refl
  | @tail b c earlier passes ih =>
    obtain ⟨vars, exprs, operator, gone, inputs⟩ := passes
    have reachedB : plan.Reaches b := LeadsTo.reaches earlier reached
    obtain ⟨vars', exprs', operator', gone'⟩ := ((pruned.operator b reachedB).mono
      fun v => List.mem_append_left more).assign_dropped operator
        fun v member => List.mem_append_right dropped (gone v member)
    have leads := pruned.inputs b reachedB
    rw [inputs] at leads
    obtain ⟨y, _, first, last, inputs'⟩ := List.forall₂_cons_right_iff.mp leads
    rw [List.forall₂_nil_right_iff.mp last] at inputs'
    have passes : start.PassesTo (dropped ++ more) b y := ⟨vars', exprs', operator', gone', inputs'⟩
    exact ih.trans (.head passes (first.mono fun v => List.mem_append_left more))

theorem trans {more : List Var} (later : plan.Pruned more plan') :
    start.Pruned (dropped ++ more) plan' := by
  have composed : ∀ {ids ids' ids'' : List NodeId}, (∀ c ∈ ids', plan.Reaches c) →
      List.Forall₂ (start.LeadsTo dropped) ids ids' → List.Forall₂ (plan.LeadsTo more) ids' ids'' →
      List.Forall₂ (start.LeadsTo (dropped ++ more)) ids ids'' := by
    intro ids ids' ids'' reached first second
    have second' := forall₂_of_mem second fun c member _ _ leads =>
      pruned.leadsTo leads (reached c member)
    refine (exists_forall₂_iff.mp ⟨ids', first, second'⟩).imp fun _ _ ⟨_, leads, leads'⟩ => ?_
    exact (LeadsTo.mono (fun v => List.mem_append_left more) leads).trans leads'
  refine ⟨later.root.trans pruned.root, fun v member => ?_, fun n reached => ?_, fun n reached => ?_,
    fun n reached => ?_⟩
  · rcases List.mem_append.mp member with before | after
    · exact pruned.assigned v before
    · obtain ⟨n, reached, isAssigned⟩ := mem_assigned.mp (later.assigned v after)
      exact mem_assigned.mpr
        ⟨n, pruned.reaches reached, (pruned.operator n reached).assigned_subset isAssigned⟩
  · exact (pruned.operator n (later.reaches reached)).trans (later.operator n reached)
  · have reachedHere := later.reaches reached
    exact composed (fun c => reachedHere.input) (pruned.inputs n reachedHere) (later.inputs n reached)
  · have reachedHere := later.reaches reached
    exact composed (fun c => reachedHere.nestedRoot) (pruned.nestedRoots n reachedHere)
      (later.nestedRoots n reached)

theorem assignsMatched (matched : start.AssignsMatched) : plan.AssignsMatched := by
  intro n reached vars exprs operator
  obtain ⟨entries, keeps, _, rfl, rfl, _⟩ := (pruned.operator n reached).entries operator
    (matched n (pruned.reaches reached))
  simp

section Columns

variable (current : start.SchemasCurrent) (wellFormed' : plan.WellFormed)
  (current' : plan.SchemasCurrent)

include current wellFormed' current'

theorem columns_self (reached : plan.Reaches n) :
    Fewer dropped (start.columns n) (plan.columns n) := by
  obtain ⟨rank, falls⟩ := wellFormed'.acyclic
  induction h : rank n using Nat.strong_induction_on generalizing n with
  | _ _ ih =>
    subst h
    have below : ∀ {c c'}, start.Reaches c → c' ∈ plan.sources n → start.LeadsTo dropped c c' →
        Fewer dropped (start.columns c) (plan.columns c') := fun reachedC source leads =>
      (leads.columns current reachedC).trans
        (ih _ (falls n reached _ source) (wellFormed'.reaches_source reached source) rfl)
    have reachedStart := pruned.reaches reached
    have prunes := pruned.operator n reached
    by_cases isSource : ∃ owner, plan.operator n = .nestedSource owner
    · obtain ⟨owner, operator⟩ := isSource
      obtain ⟨c, found, columns⟩ :=
        current.columns_nestedSource reachedStart (prunes.nestedSource_iff.mp operator)
      obtain ⟨c', found', columns'⟩ := current'.columns_nestedSource reached operator
      rw [columns, columns']
      have reachedOwner := (wellFormed'.reaches_of_reads reached (.source operator)).1
      obtain ⟨x, isInput, leads⟩ := getElem?_replacing (pruned.inputs owner reachedOwner) found'
      cases found.symm.trans isInput
      exact below ((pruned.reaches reachedOwner).input (List.mem_of_getElem? found))
        (mem_sources_iff.mpr (.inr ⟨owner, operator, found'⟩)) leads
    · have other : ∀ owner, plan.operator n ≠ .nestedSource owner := not_exists.mp isSource
      have otherStart : ∀ owner, start.operator n ≠ .nestedSource owner := fun owner operator =>
        other owner (prunes.nestedSource_iff.mpr operator)
      have listed : ∀ {ids ids' : List NodeId}, (∀ c ∈ ids, start.Reaches c) →
          (∀ c' ∈ ids', c' ∈ plan.sources n) → List.Forall₂ (start.LeadsTo dropped) ids ids' →
          List.Forall₂ (Fewer dropped) (ids.map start.columns) (ids'.map plan.columns) := by
        intro ids ids' reachedIds sources leads
        rw [List.forall₂_map_left_iff, List.forall₂_map_right_iff]
        exact forall₂_of_mem leads fun c member c' member' =>
          below (reachedIds c member) (sources c' member')
      rw [current.columns_eq reachedStart otherStart, current'.columns_eq reached other]
      refine prunes.schema (listed (fun c => reachedStart.input) (fun c' => mem_sources_of_input)
        (pruned.inputs n reached)) (listed (fun c => reachedStart.nestedRoot) (fun c' isRoot => ?_)
          (pruned.nestedRoots n reached))
      exact mem_sources_of_child (List.mem_append_right _ isRoot)

/-- What is left of a node has its columns, but for the dropped variables. -/
theorem columns (reached : start.Reaches m) (leads : start.LeadsTo dropped m n)
    (reached' : plan.Reaches n) : Fewer dropped (start.columns m) (plan.columns n) :=
  (leads.columns current reached).trans (pruned.columns_self current wellFormed' current' reached')

/-- Operators that read no dropped variable find what they read. -/
theorem inScope (scope : start.InScope)
    (unread : ∀ v ∈ dropped, ∀ n, plan.Reaches n → v ∉ (plan.operator n).used) : plan.InScope := by
  intro n reached other v read
  have prunes := pruned.operator n reached
  have otherStart : ∀ nested, start.operator n ≠ .subplan nested := by
    intro nested operator
    rw [operator] at prunes
    rcases prunes with ⟨nested', after⟩ | ⟨_, _, before, _⟩
    · exact other nested' after
    · cases before
  have reachedStart := pruned.reaches reached
  obtain ⟨c, isInput, inside⟩ := scope n reachedStart otherStart v (prunes.used_subset read)
  obtain ⟨c', isInput', leads⟩ := exists_replacing (pruned.inputs n reached) isInput
  have fewer := pruned.columns current wellFormed' current' (reachedStart.input isInput) leads
    (reached.input isInput')
  exact ⟨c', isInput', (fewer.mem_iff fun gone => unread v gone n reached read).mpr inside⟩

omit current in
/-- If each variable is produced once, then no dropped one is a column any more. -/
theorem not_mem_columns (once : start.ProducedOnce) (scope : plan.InScope)
    (gone : ∀ v ∈ dropped, v ∉ plan.assigned) (reached : plan.Reaches n) (member : v ∈ plan.columns n) :
    v ∉ dropped := by
  intro isDropped
  obtain ⟨rank, falls⟩ := wellFormed'.acyclic
  obtain ⟨m, reachedM, _, produced⟩ := exists_producer current' scope wellFormed' falls reached member
  obtain ⟨a, reachedA, isAssigned⟩ := mem_assigned.mp (pruned.assigned v isDropped)
  have prunes := pruned.operator m reachedM
  have assignedProduced : v ∈ (start.operator a).produced := by
    cases operator : start.operator a with
    | assign vars exprs => rw [operator] at isAssigned; exact isAssigned
    | _ => rw [operator] at isAssigned; cases isAssigned
  obtain rfl := once.unique reachedA (pruned.reaches reachedM) assignedProduced
    (prunes.produced_subset produced)
  exact gone v isDropped (mem_assigned.mpr
    ⟨a, reachedM, prunes.assigned_of_produced isAssigned produced⟩)

end Columns

end Pruned

end Plan

end QueryOptimizer
