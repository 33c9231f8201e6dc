import Mathlib
import QueryOptimizer.Proofs.Batch.Merging
import QueryOptimizer.Proofs.Plan.Growth
import QueryOptimizer.Proofs.Transform.Inlining

/-! # Selects that are split, variables that are inlined, assigns that are dropped

Splitting a select leaves fewer conjunctions. Inlining leaves fewer places where a variable is read
that is to be replaced: the variables that can be replaced never become more. Dropping assigns leaves
fewer of them, or leaves a slot with a node of a smaller rank: ranks fall from assigns to their
inputs, and selects that are added have the rank zero.
-/

namespace QueryOptimizer

variable {vars vars' kept : VarSet}

/-- What there is to split and to drop at a node. -/
def Operator.bulk : Operator → Nat
  | select condition => condition.conjuncts.length - 1
  | assign vs _ => vs.length
  | _ => 0

/-- What there is to do at a node, with the variables that are to be replaced. -/
def toDo (vars : VarSet) : Burden where
  of op := op.bulk + op.reads.countP (· ∈ vars)
  of_emptySource := rfl
  of_mapNested op f := by cases op <;> rfl

theorem toDo_of (op : Operator) : (toDo vars).of op = op.bulk + op.reads.countP (· ∈ vars) := rfl

theorem toDo_select (condition : Expr) : (toDo vars).of (.select condition) =
    condition.conjuncts.length - 1 + condition.occurrences.countP (· ∈ vars) := by
  simp [toDo_of, Operator.bulk, Operator.reads, Operator.exprs, Expr.occurrencesList]

namespace Operator

variable {op op' : Operator}

theorem toDo_mono (fewer : ∀ v, v ∈ vars' → v ∈ vars) : (toDo vars').of op ≤ (toDo vars).of op :=
  Nat.add_le_add_left (List.countP_mono_left fun v _ inside => by simpa using fewer v (by simpa using inside)) _

theorem isAssign_mapNested (f : NestedPlans → NestedPlans) :
    ((op.mapNested f).kind = .assign) = (op.kind = .assign) := by
  cases op <;> rfl

theorem copies_mapNested (f : NestedPlans → NestedPlans) :
    (op.mapNested f).copies kept = op.copies kept := by
  cases op <;> rfl

/-- The order of the entries of a group-by does not matter. -/
theorem toDo_groupBy {keys decor keys' decor' : List (Var × Expr)} {nested : NestedPlans}
    (perm : (keys' ++ decor').Perm (keys ++ decor)) :
    (toDo vars).of (groupBy keys' decor' nested) = (toDo vars).of (groupBy keys decor nested) := by
  change 0 + (Expr.occurrencesList ((keys' ++ decor').map (·.2))).countP (· ∈ vars) =
    0 + (Expr.occurrencesList ((keys ++ decor).map (·.2))).countP (· ∈ vars)
  rw [Expr.occurrencesList_eq, Expr.occurrencesList_eq]
  exact congrArg _ (((perm.map _).flatMap_right _).countP_eq _)

theorem map_snd_zip_sublist {α β : Type} (as : List α) (bs : List β) :
    ((as.zip bs).map (·.2)).Sublist bs := by
  induction as generalizing bs with
  | nil => exact List.nil_sublist bs
  | cons a as ih =>
    cases bs with
    | nil => exact .slnil
    | cons b bs => exact (ih bs).cons_cons b

/-- Fewer assignments are less to do. -/
theorem toDo_assign_lt {vs : List Var} {es : List Expr} {left : List (Var × Expr)}
    (sub : left.Sublist (vs.zip es)) (less : left.length < vs.length) :
    (toDo vars).of (assign (left.map (·.1)) (left.map (·.2))) < (toDo vars).of (assign vs es) := by
  have fewer : (left.map (·.2)).Sublist es := (sub.map _).trans (map_snd_zip_sublist vs es)
  have reads : (Expr.occurrencesList (left.map (·.2))).countP (· ∈ vars) ≤
      (Expr.occurrencesList es).countP (· ∈ vars) := by
    rw [Expr.occurrencesList_eq, Expr.occurrencesList_eq]
    exact (fewer.flatMap _).countP_le
  change (left.map (·.1)).length + (Expr.occurrencesList (left.map (·.2))).countP (· ∈ vars) <
    vs.length + (Expr.occurrencesList es).countP (· ∈ vars)
  rw [List.length_map]
  omega

theorem copies_assign_sublist {vs : List Var} {es : List Expr} {left : List (Var × Expr)}
    (sub : left.Sublist (vs.zip es)) {v : Var}
    (member : v ∈ (assign (left.map (·.1)) (left.map (·.2))).copies kept) :
    v ∈ (assign vs es).copies kept := by
  obtain ⟨source, paired, other, free⟩ := mem_copies_assign.mp member
  have same : (left.map (·.1)).zip (left.map (·.2)) = left :=
    (List.zip_of_prod rfl rfl).symm
  rw [same] at paired
  exact mem_copies_assign.mpr ⟨source, sub.subset paired, other, free⟩

theorem rename_frame (op : Operator) (renames : Renaming) : (op.rename renames).arity = op.arity ∧
    (op.rename renames).nested = op.nested ∧ (op.rename renames).bulk = op.bulk ∧
    (op.rename renames).kind = op.kind := by
  cases op with
  | select condition => simp [rename, bulk, Expr.length_conjuncts_rename, arity, nested, kind]
  | project => rw [rename]; split <;> exact ⟨rfl, rfl, rfl, rfl⟩
  | distinct => rw [rename]; split <;> exact ⟨rfl, rfl, rfl, rfl⟩
  | _ => exact ⟨rfl, rfl, rfl, rfl⟩

theorem copies_of_other (other : op.kind ≠ .assign) : op.copies kept = [] := by
  cases op with
  | assign => exact absurd rfl other
  | _ => rfl

end Operator

namespace Plan

variable {plan plan' grown : Plan} {slot : Slot} {id x n m c top : NodeId} {op : Operator}
  {rank : NodeId → Nat} {k : Nat}

/-- Whether ranks fall from assigns to their inputs. -/
def AssignsBelow (plan : Plan) (rank : NodeId → Nat) : Prop :=
  ∀ n, (plan.operator n).kind = .assign → ∀ c ∈ plan.inputs n, rank c < rank n

/-- A plan that is about to be normalized. The variables that are assigned from other variables are
    among those that are to be replaced. -/
structure Normalizes (plan : Plan) (vars kept : VarSet) (rank : NodeId → Nat) : Prop where
  regular : plan.Regular
  assigns : plan.AssignsBelow rank
  inside : ∀ n, plan.Reaches n → ∀ v ∈ (plan.operator n).copies kept, v ∈ vars

theorem contains_of_reads {v : Var} (isRead : v ∈ (plan.operator n).reads) :
    plan.contains n = true := by
  by_contra absent
  rw [Plan.operator, node_of_absent absent] at isRead
  cases isRead

theorem contains_of_kind (other : (plan.operator n).kind ≠ .emptySource) :
    plan.contains n = true := by
  by_contra absent
  refine other ?_
  rw [Plan.operator, node_of_absent absent]
  rfl

namespace Normalizes

variable (normalizes : plan.Normalizes vars kept rank)

include normalizes

theorem setOperator (arity : op.arity = (plan.operator n).arity)
    (nested : op.nested = (plan.operator n).nested)
    (isAssign : op.kind = .assign → (plan.operator n).kind = .assign)
    (copies : (∀ v ∈ (plan.operator n).copies kept, v ∈ vars) → ∀ v ∈ op.copies kept, v ∈ vars) :
    (plan.setOperator n op).Normalizes vars kept rank := by
  have operators := fun m => operator_setOperator_cases plan n m op
  refine ⟨normalizes.regular.setOperator arity fun c member => ?_, fun m assigns c member => ?_,
    fun m reached => ?_⟩
  · rw [nested] at member
    exact normalizes.regular.nested n c member
  · rw [inputs_setOperator] at member
    refine normalizes.assigns m ?_ c member
    rcases operators m with same | ⟨rfl, changed⟩
    · rwa [same] at assigns
    · rw [changed] at assigns
      exact isAssign assigns
  · have same : ∀ m, plan.Reaches m → (plan.setOperator n op).children m = plan.children m := by
      intro m _
      rw [Plan.children, Plan.children, inputs_setOperator, nestedRoots, nestedRoots,
        operator_setOperator_keeps _ nested]
    have inside := normalizes.inside m ((Below.congr same .refl).mp reached)
    rcases operators m with same | ⟨rfl, changed⟩
    · rwa [same]
    · rw [changed]
      exact copies inside

theorem onlySchemas (only : plan.OnlySchemas plan') : plan'.Normalizes vars kept rank := by
  refine ⟨normalizes.regular.onlySchemas only, fun n isAssign c member => ?_, fun n reached => ?_⟩
  · rw [only.inputs] at member
    rw [only.operator] at isAssign
    exact normalizes.assigns n isAssign c member
  · rw [only.operator]
    exact normalizes.inside n (only.reaches_iff.mp reached)

/-- Another node, below the old one, in a slot. -/
theorem setSlot (here : plan.nodeAt slot = .ok id) (isInput : c ∈ plan.inputs id)
    (lower : rank c < rank id) (done : plan.setSlot slot c = .ok plan') : plan'.Normalizes vars kept rank := by
  have rewired := setSlot_rewired (fun parent _ _ => normalizes.regular.numbered parent) here done
  refine ⟨normalizes.regular.setSlot here done (normalizes.regular.inputs id c isInput),
    fun n isAssign t member => ?_, fun n reached => ?_⟩
  · obtain ⟨nested, changed, _⟩ := rewired.operator n
    rw [changed, Operator.isAssign_mapNested] at isAssign
    obtain ⟨y, member, rfl | ⟨rfl, rfl⟩⟩ := exists_replaced (rewired.inputs n) member
    · exact normalizes.assigns n isAssign t member
    · exact lower.trans (normalizes.assigns n isAssign y member)
  · obtain ⟨nested, changed, _⟩ := rewired.operator n
    rw [changed, Operator.copies_mapNested]
    refine normalizes.inside n (Below.of_closed (P := plan.Reaches) ?_ ?_ reached)
    · rcases rewired.root with same | ⟨same, new⟩
      · rw [same]
        exact .refl
      · rw [new]
        exact Reaches.input (same ▸ .refl) isInput
    · intro parent reached child member
      rcases rewired.child member with member | ⟨_, isOld, rfl⟩
      · exact reached.child member
      · exact (reached.child isOld).input isInput

end Normalizes

/-! ## Chains of selects -/

/-- A plan with new selects over a node, one for each condition. -/
structure Chained (plan : Plan) (x : NodeId) (rank : NodeId → Nat) (conditions : List Expr)
    (grown : Plan) (top : NodeId) : Prop where
  regular : grown.Regular
  contains : grown.contains top = true
  keeps : ∀ n, plan.contains n = true → grown.contains n = true
  others : ∀ n, plan.contains n = true → grown.node n = plan.node n
  root : grown.root = plan.root
  top_new : top = x ∨ plan.contains top = false
  children : ∀ n, plan.contains n = false → ∀ c ∈ grown.children n, c = x ∨ plan.contains c = false
  selects : ∀ n, plan.contains n = false → (grown.operator n).kind ≠ .assign
  load : ∀ vars, grown.load (toDo vars) rank + rank top = plan.load (toDo vars) rank + rank x +
    (Expr.occurrencesList conditions).countP (· ∈ vars)

theorem operator_of_absent (absent : plan.contains n = false) : plan.operator n = .emptySource := by
  rw [Plan.operator, node_of_absent (by simp [absent])]
  rfl

theorem children_of_absent (absent : plan.contains n = false) : plan.children n = [] := by
  rw [Plan.children, Plan.inputs, nestedRoots, operator_of_absent absent,
    node_of_absent (by simp [absent])]
  rfl

theorem Regular.chained_nil (regular : plan.Regular) (present : plan.contains x = true) :
    plan.Chained x rank [] plan x where
  regular := regular
  contains := present
  keeps _ present := present
  others _ _ := rfl
  root := rfl
  top_new := .inl rfl
  children n absent c member := by
    rw [children_of_absent absent] at member
    cases member
  selects n absent := by
    rw [operator_of_absent absent]
    exact OperatorKind.noConfusion
  load vars := by simp [Expr.occurrencesList]

/-- A select with one conjunct on top of a chain. -/
theorem Chained.cons {conditions : List Expr} {condition : Expr}
    (chained : plan.Chained x rank conditions grown top) (simple : condition.conjuncts = [condition])
    (unranked : ∀ n, plan.contains n = false → rank n = 0)
    {higher : Plan} (grows : grown.Grows (.select condition) top higher m) :
    plan.Chained x rank (condition :: conditions) higher m := by
  have ne_of_old : ∀ n, plan.contains n = true → n ≠ m := fun n present =>
    grows.ne_of_contains (chained.keeps n present)
  have absent : plan.contains m = false := by
    by_contra present
    exact ne_of_old m (by simpa using present) rfl
  refine ⟨grows.regular, grows.contains, fun n present => grows.keeps n (chained.keeps n present),
    fun n present => (grows.others n (ne_of_old n present)).trans (chained.others n present),
    grows.root.trans chained.root, .inr absent, fun n isNew c member => ?_, fun n isNew => ?_,
    fun vars => ?_⟩
  · by_cases isTop : n = m
    · subst isTop
      rw [Plan.children, grows.inputs, nestedRoots, grows.operator] at member
      obtain rfl : c = top := by simpa [Operator.nested] using member
      exact chained.top_new
    · rw [children_congr (grows.others n isTop)] at member
      exact chained.children n isNew c member
  · by_cases isTop : n = m
    · rw [isTop, grows.operator]
      exact OperatorKind.noConfusion
    · rw [grows.operator_of_ne isTop]
      exact chained.selects n isNew
  · have before := chained.load vars
    rw [grows.load, toDo_select, simple, unranked m absent, Expr.occurrencesList, List.countP_append,
      List.length_singleton]
    omega

theorem Regular.chained (regular : plan.Regular) (present : plan.contains x = true)
    (unranked : ∀ n, plan.contains n = false → rank n = 0) (mode : Mode) {conditions : List Expr}
    (simple : ∀ c ∈ conditions, c.conjuncts = [c]) :
    plan.Chained x rank conditions (plan.addSelects mode x conditions).1
      (plan.addSelects mode x conditions).2 := by
  induction conditions with
  | nil => exact regular.chained_nil present
  | cons condition conditions ih =>
    have chained := ih fun c member => simple c (List.mem_cons_of_mem _ member)
    have unary : (Operator.select condition).arity = 1 := rfl
    exact chained.cons (simple condition List.mem_cons_self) unranked
      (chained.regular.grows mode unary rfl chained.contains)

/-- A select whose first conjunct stays, and a chain of selects for the others below it. -/
structure Splits (plan : Plan) (vars kept : VarSet) (rank : NodeId → Nat) (id x : NodeId)
    (condition first : Expr) (rest : List Expr) (grown : Plan) (top : NodeId) (plan' : Plan) : Prop where
  normalizes : plan.Normalizes vars kept rank
  operator : plan.operator id = .select condition
  isInput : (plan.inputs id)[0]? = some x
  conjuncts : condition.conjuncts = first :: rest
  chained : plan.Chained x rank rest grown top
  result : plan' = (grown.setOperator id (.select first)).setInput id 0 top

namespace Splits

variable {condition first : Expr} {rest : List Expr}
  (splits : plan.Splits vars kept rank id x condition first rest grown top plan')

include splits

theorem present : plan.contains id = true := contains_of_input splits.isInput

theorem ne_of_absent (absent : plan.contains n = false) : n ≠ id := by
  rintro rfl
  cases absent.symm.trans splits.present

theorem first_conjuncts : first.conjuncts = [first] :=
  Expr.conjuncts_of_mem (splits.conjuncts ▸ List.mem_cons_self)

theorem operator_grown : grown.operator id = .select condition :=
  (congrArg Node.operator (splits.chained.others id splits.present)).trans splits.operator

theorem inputs_mid : (grown.setOperator id (.select first)).inputs id = [x] := by
  have unary : (plan.operator id).arity = 1 := by
    rw [splits.operator]
    rfl
  have only := splits.normalizes.regular.inputs_eq_singleton splits.isInput unary
  rw [inputs_setOperator, Plan.inputs, splits.chained.others id splits.present]
  exact only

theorem found_mid : ((grown.setOperator id (.select first)).inputs id)[0]? = some x := by
  rw [splits.inputs_mid]
  rfl

theorem regular_mid : (grown.setOperator id (.select first)).Regular := by
  refine splits.chained.regular.setOperator ?_ fun c member => by cases member
  rw [splits.operator_grown]
  rfl

theorem inputs_self : plan'.inputs id = [top] := by
  rw [splits.result, inputs_setInput_self splits.regular_mid.numbered splits.found_mid, splits.inputs_mid]
  rfl

theorem operator_self : plan'.operator id = .select first := by
  rw [splits.result, operator_setInput]
  exact operator_setOperator_self (splits.chained.keeps id splits.present)

theorem operator_of_ne (other : n ≠ id) : plan'.operator n = grown.operator n := by
  rw [splits.result, operator_setInput, operator_setOperator_of_ne other]

theorem inputs_of_ne (other : n ≠ id) : plan'.inputs n = grown.inputs n := by
  rw [splits.result, inputs_setInput_of_ne other, inputs_setOperator]

theorem children_of_ne (other : n ≠ id) : plan'.children n = grown.children n := by
  rw [Plan.children, Plan.children, splits.inputs_of_ne other, nestedRoots, splits.operator_of_ne other]
  rfl

/-- A node that was there, or is none of the selects, is as it was. -/
theorem isAssign (isAssign : (plan'.operator n).kind = .assign) : n ≠ id ∧ plan.contains n = true := by
  have other : n ≠ id := by
    rintro rfl
    rw [splits.operator_self] at isAssign
    cases isAssign
  refine ⟨other, ?_⟩
  by_contra absent
  rw [splits.operator_of_ne other] at isAssign
  exact splits.chained.selects n (by simpa using absent) isAssign

/-- What can be reached was there, or is in the chain. -/
theorem reaches (reached : plan'.Reaches n) :
    plan.Reaches n ∨ plan.contains n = false ∧ plan.Reaches id := by
  refine Below.of_closed (P := fun n => plan.Reaches n ∨ plan.contains n = false ∧ plan.Reaches id)
    (.inl ?_) ?_ reached
  · rw [show plan'.root = plan.root from splits.result ▸ splits.chained.root]
    exact .refl
  · intro parent either child member
    have input : plan.Reaches id → plan.Reaches x := fun reached =>
      reached.input (List.mem_of_getElem? splits.isInput)
    rcases either with atParent | ⟨absent, atId⟩
    · by_cases isId : parent = id
      · subst isId
        rw [Plan.children, splits.inputs_self, nestedRoots, splits.operator_self] at member
        obtain rfl : child = top := by simpa [Operator.nested] using member
        rcases splits.chained.top_new with rfl | absent
        · exact .inl (input atParent)
        · exact .inr ⟨absent, atParent⟩
      · have present := splits.normalizes.regular.present atParent
        rw [splits.children_of_ne isId, children_congr (splits.chained.others parent present)] at member
        exact .inl (atParent.child member)
    · rw [splits.children_of_ne (splits.ne_of_absent absent)] at member
      rcases splits.chained.children parent absent child member with rfl | absent
      · exact .inl (input atId)
      · exact .inr ⟨absent, atId⟩

theorem normalizes' : plan'.Normalizes vars kept rank := by
  refine ⟨splits.result ▸ splits.regular_mid.setInput splits.found_mid
    (contains_modify.trans splits.chained.contains), fun n isAssign c member => ?_, fun n reached v member => ?_⟩
  · obtain ⟨other, present⟩ := splits.isAssign isAssign
    have same := splits.chained.others n present
    rw [splits.operator_of_ne other, Plan.operator, same] at isAssign
    rw [splits.inputs_of_ne other, Plan.inputs, same] at member
    exact splits.normalizes.assigns n isAssign c member
  · by_cases isAssign : (plan'.operator n).kind = .assign
    · obtain ⟨other, present⟩ := splits.isAssign isAssign
      rcases splits.reaches reached with reached | ⟨absent, _⟩
      · rw [splits.operator_of_ne other, Plan.operator, splits.chained.others n present] at member
        exact splits.normalizes.inside n reached v member
      · cases absent.symm.trans present
    · rw [Operator.copies_of_other isAssign] at member
      cases member

theorem load_lt (several : 0 < rest.length) : plan'.load (toDo vars) rank < plan.load (toDo vars) rank := by
  have chain := splits.chained.load vars
  have nested : (Operator.select first).nested = (grown.operator id).nested := by
    rw [splits.operator_grown]
    rfl
  have kept : (grown.setOperator id (.select first)).load (toDo vars) rank +
      (toDo vars).of (grown.operator id) =
        grown.load (toDo vars) rank + (toDo vars).of (Operator.select first) :=
    load_setOperator (splits.chained.keeps id splits.present) nested
  have moved : plan'.load (toDo vars) rank + rank x =
      (grown.setOperator id (.select first)).load (toDo vars) rank + rank top :=
    splits.result ▸ load_setInput splits.regular_mid.numbered splits.found_mid top
  have occurrences : condition.occurrences = first.occurrences ++ Expr.occurrencesList rest := by
    rw [← Expr.occurrencesList_conjuncts, splits.conjuncts]
    rfl
  rw [splits.operator_grown, toDo_select, toDo_select, splits.conjuncts, splits.first_conjuncts,
    occurrences, List.countP_append, List.length_cons, List.length_singleton] at kept
  omega

end Splits

/-- What is left to do to normalize the plan is the number, or less. -/
def NormalizesWithin (plan : Plan) (vars kept : VarSet) (k : Nat) : Prop :=
  ∃ rank, plan.Normalizes vars kept rank ∧ plan.load (toDo vars) rank ≤ k

/-- Not all assignments are left if not all variables are needed. -/
theorem length_needed_lt {needed : VarSet} {vs : List Var} {es : List Expr}
    (unneeded : ¬needed.containsAll vs = true) :
    ((vs.zip es).filter fun a => decide (a.1 ∈ needed)).length < vs.length := by
  by_contra all
  have short : (vs.zip es).length ≤ vs.length := by simp
  have most := List.length_filter_le (fun a : Var × Expr => decide (a.1 ∈ needed)) (vs.zip es)
  have every := List.length_filter_eq_length_iff.mp (by omega :
    ((vs.zip es).filter fun a => decide (a.1 ∈ needed)).length = (vs.zip es).length)
  have long : vs.length ≤ es.length := by
    rw [List.length_zip] at most
    omega
  refine unneeded (VarSet.containsAll_iff.mpr fun v member => ?_)
  rw [← List.map_fst_zip long] at member
  obtain ⟨a, paired, rfl⟩ := List.mem_map.mp member
  simpa using every a paired

namespace NormalizesWithin

variable (within : plan.NormalizesWithin vars kept k)

include within

theorem onlySchemas (only : plan.OnlySchemas plan') : plan'.NormalizesWithin vars kept k := by
  obtain ⟨rank, normalizes, small⟩ := within
  refine ⟨rank, normalizes.onlySchemas only, ?_⟩
  rwa [only.load]

/-- Fewer variables that are to be replaced. -/
theorem fewer (less : ∀ v, v ∈ vars' → v ∈ vars)
    (inside : ∀ n, plan.Reaches n → ∀ v ∈ (plan.operator n).copies kept, v ∈ vars') :
    plan.NormalizesWithin vars' kept k := by
  obtain ⟨rank, normalizes, small⟩ := within
  exact ⟨rank, ⟨normalizes.regular, normalizes.assigns, inside⟩,
    (load_mono fun _ => Operator.toDo_mono less).trans small⟩

/-- Keys of a group-by that become decorations. -/
theorem regroup {keys decor keys' decor' : List (Var × Expr)} {nested : NestedPlans}
    (operator : plan.operator n = .groupBy keys decor nested)
    (perm : (keys' ++ decor').Perm (keys ++ decor)) :
    (plan.setOperator n (.groupBy keys' decor' nested)).NormalizesWithin vars kept k := by
  obtain ⟨rank, normalizes, small⟩ := within
  let op : Operator := .groupBy keys' decor' nested
  have present : plan.contains n = true := contains_of_kind (by rw [operator]; exact OperatorKind.noConfusion)
  have sameNested : op.nested = (plan.operator n).nested := by rw [operator]; rfl
  have moved : (plan.setOperator n op).load (toDo vars) rank + (toDo vars).of (plan.operator n) =
      plan.load (toDo vars) rank + (toDo vars).of op := load_setOperator present sameNested
  rw [operator, Operator.toDo_groupBy perm] at moved
  have sameArity : op.arity = (plan.operator n).arity := by rw [operator]; rfl
  have other : op.kind ≠ .assign := OperatorKind.noConfusion
  refine ⟨rank, normalizes.setOperator sameArity sameNested (absurd · other) fun _ v member => ?_, ?_⟩
  · rw [Operator.copies_of_other other] at member
    cases member
  · change (plan.setOperator n op).load (toDo vars) rank ≤ k
    omega

theorem rename {renames : Renaming} (out : renames.LeadsOut vars)
    (isRenamed : (plan.operator n).isRenamedBy renames = true) :
    ∃ k' < k, (plan.setOperator n ((plan.operator n).rename renames)).NormalizesWithin vars kept k' := by
  obtain ⟨rank, normalizes, small⟩ := within
  obtain ⟨v, isRead, _⟩ := List.any_eq_true.mp isRenamed
  have present := contains_of_reads (Operator.mem_used_iff.mp isRead)
  obtain ⟨arity, nested, bulk, kind⟩ := (plan.operator n).rename_frame renames
  have moved : (plan.setOperator n ((plan.operator n).rename renames)).load (toDo vars) rank +
      (toDo vars).of (plan.operator n) =
        plan.load (toDo vars) rank + (toDo vars).of ((plan.operator n).rename renames) :=
    load_setOperator present nested
  have lighter : (toDo vars).of ((plan.operator n).rename renames) <
      (toDo vars).of (plan.operator n) := by
    rw [toDo_of, toDo_of, bulk]
    exact Nat.add_lt_add_left (Operator.countP_reads_rename_lt out isRenamed) _
  exact ⟨_, by omega, rank, normalizes.setOperator arity nested kind.symm.trans
    (fun inside v => Operator.copies_rename out inside), Nat.le_refl _⟩

theorem dropUnusedAssigns {needed : VarSet}
    (done : plan.dropUnusedAssigns needed slot = .ok (some plan')) :
    ∃ k' < k, plan'.NormalizesWithin vars kept k' := by
  obtain ⟨rank, normalizes, small⟩ := within
  obtain ⟨id, here, ⟨impossible, _⟩ | ⟨vs, es, _, same, operator, unneeded, dropped⟩⟩ :=
    dropUnusedAssigns_cases done
  · cases impossible
  cases same
  let left := (vs.zip es).filter fun a => decide (a.1 ∈ needed)
  have sub : left.Sublist (vs.zip es) := List.filter_sublist
  have less : left.length < vs.length := length_needed_lt unneeded
  rcases dropped with ⟨_, input, isInput, placed⟩ | rfl
  · have isInput := List.mem_of_getElem? isInput
    have isAssign : (plan.operator id).kind = .assign := by rw [operator]; rfl
    have falls := normalizes.assigns id isAssign input isInput
    have moved : plan'.load (toDo vars) rank + rank id = plan.load (toDo vars) rank + rank input :=
      load_setSlot normalizes.regular.numbered here placed
    exact ⟨_, by omega, rank, normalizes.setSlot here isInput falls placed, Nat.le_refl _⟩
  · let op : Operator := .assign (left.map (·.1)) (left.map (·.2))
    have sameNested : op.nested = (plan.operator id).nested := by rw [operator]; rfl
    have sameArity : op.arity = (plan.operator id).arity := by rw [operator]; rfl
    have sameKind : op.kind = (plan.operator id).kind := by rw [operator]; rfl
    have lighter : (toDo vars).of op < (toDo vars).of (plan.operator id) := by
      rw [operator]
      exact Operator.toDo_assign_lt sub less
    have moved : (plan.setOperator id op).load (toDo vars) rank +
        (toDo vars).of (plan.operator id) = plan.load (toDo vars) rank + (toDo vars).of op :=
      load_setOperator
        (contains_of_kind (by rw [operator]; exact OperatorKind.noConfusion)) sameNested
    refine ⟨(plan.setOperator id op).load (toDo vars) rank, by omega, rank,
      normalizes.setOperator sameArity sameNested sameKind.symm.trans fun inside v member => ?_,
      Nat.le_refl _⟩
    rw [operator] at inside
    exact inside v (Operator.copies_assign_sublist sub member)

/-- Only the ranks of the nodes that are there matter. -/
theorem unranked : ∃ rank, plan.Normalizes vars kept rank ∧ plan.load (toDo vars) rank ≤ k ∧
    ∀ n, plan.contains n = false → rank n = 0 := by
  obtain ⟨rank, normalizes, small⟩ := within
  let rank' := fun n => if plan.contains n = true then rank n else 0
  have old : ∀ {n}, plan.contains n = true → rank' n = rank n := fun present => if_pos present
  have same : plan.load (toDo vars) rank' = plan.load (toDo vars) rank := normalizes.regular.load_congr fun n => old
  refine ⟨rank', ⟨normalizes.regular, fun n isAssign c member => ?_, normalizes.inside⟩, ?_,
    fun n absent => if_neg (by simp [absent])⟩
  · rw [old (contains_of_mem member), old (normalizes.regular.inputs n c member)]
    exact normalizes.assigns n isAssign c member
  · rwa [same]

theorem splitSelect (done : plan.splitSelect slot = .ok (some plan')) :
    ∃ k' < k, plan'.NormalizesWithin vars kept k' := by
  obtain ⟨rank, normalizes, small, unranked⟩ := within.unranked
  obtain ⟨id, here, done⟩ := bind_ok_iff.mp done
  split at done
  · rename_i condition operator
    split at done
    · rename_i first next rest conjuncts
      obtain ⟨x, isInput, done⟩ := bind_ok_iff.mp done
      cases pure_ok_iff.mp done
      have isInput := input_ok_iff.mp isInput
      have simple : ∀ c ∈ next :: rest, c.conjuncts = [c] := fun c member =>
        Expr.conjuncts_of_mem (conjuncts ▸ List.mem_cons_of_mem first member)
      have present := normalizes.regular.inputs id x (List.mem_of_getElem? isInput)
      have splits : plan.Splits vars kept rank id x condition first (next :: rest) _ _ _ :=
        ⟨normalizes, operator, isInput, conjuncts,
          normalizes.regular.chained present unranked (plan.mode id) simple, rfl⟩
      exact ⟨_, Nat.lt_of_lt_of_le (splits.load_lt (by simp)) small, rank, splits.normalizes',
        Nat.le_refl _⟩
    · cases pure_ok_iff.mp done
  · cases pure_ok_iff.mp done

end NormalizesWithin

end Plan

/-! ## The batch -/

/-- The rules that normalize a plan. -/
def normalizing : List Rule := [.splitSelect, .inlineVariables, .dropUnusedAssigns]

/-- The variables that a rule that inlines goes by are those that are to be replaced, or it did not
    start. -/
def RuleState.Inlines (vars : VarSet) (r : RuleState) : Prop :=
  r.rule = .inlineVariables → r.vars.isEmpty = true ∨ r.vars = vars

/-- A bound on how often the rules that normalize a plan can fire. -/
def NormalizingBound (states : List RuleState) (s : Session) (k : Nat) : Prop :=
  states.map (·.rule) = normalizing ∧
    ∃ vars, (∀ r ∈ states, r.Inlines vars) ∧ s.plan.NormalizesWithin vars s.context.kept k

/-- Facts have no part in what is left to do. -/
theorem staysWithFacts_normalizes (vars : VarSet) (k : Nat) :
    StaysWithFacts fun s => s.plan.NormalizesWithin vars s.context.kept k where
  schemas only within := within.onlySchemas only
  regroup shape perm within := within.regroup shape perm
  note within := within

section

variable {hook : Hook} {slot : Slot} {first rest : List RuleState} {r r' : RuleState}
  {s s' s'' : Session} {fired : Bool} {k : Nat}

theorem RuleState.offer_inlineVariables (rule : r.rule = .inlineVariables)
    (offered : r.offer hook slot s = .ok (r', s', fired)) :
    r' = r ∧ s' = s ∧ fired = false ∨ r'.rule = r.rule ∧
      r'.vars = (if slot = .root then s.inlineable else r.vars) ∧
      s.inlineAt r'.vars slot = .ok (s', fired) := by
  obtain ⟨_, vars, nodes⟩ := r
  cases rule
  cases hook with
  | before =>
    obtain ⟨⟨s₁, fired₁⟩, inlined, offered⟩ := bind_ok_iff.mp offered
    cases pure_ok_iff.mp offered
    refine .inr ⟨?_, ?_, inlined⟩
    · split <;> rfl
    · split <;> rfl
  | after =>
    cases pure_ok_iff.mp offered
    exact .inl ⟨rfl, rfl, rfl⟩

/-- The rule that drops assignments collects what is needed at the root, and does nothing on the way
    up. -/
theorem RuleState.offer_dropUnusedAssigns (rule : r.rule = .dropUnusedAssigns)
    (offered : r.offer hook slot s = .ok (r', s', fired)) :
    hook = .after ∧ r' = r ∧ s' = s ∧ fired = false ∨
      hook = .before ∧ r'.rule = r.rule ∧
        (slot = .root ∧ s.plan.neededVars = .ok r'.vars ∨ slot ≠ .root ∧ r' = r) ∧
        ∃ found, s.plan.dropUnusedAssigns r'.vars slot = .ok found ∧
          r'.outcome s found = (r', s', fired) := by
  obtain ⟨_, vars, nodes⟩ := r
  cases rule
  cases hook with
  | before =>
    have dropped : ∀ q : RuleState,
        (do return q.outcome s (← s.plan.dropUnusedAssigns q.vars slot)) =
          Except.ok (r', s', fired) →
        r' = q ∧ ∃ found, s.plan.dropUnusedAssigns q.vars slot = .ok found ∧
          q.outcome s found = (q, s', fired) := by
      intro q done
      obtain ⟨found, dropped, done⟩ := bind_ok_iff.mp done
      have done := pure_ok_iff.mp done
      have same : r' = q := by cases found <;> cases done <;> rfl
      exact ⟨same, found, dropped, same ▸ done⟩
    replace offered : (⟨.dropUnusedAssigns, vars, nodes⟩ : RuleState).before slot s =
      .ok (r', s', fired) := offered
    unfold RuleState.before at offered
    dsimp only at offered
    split at offered
    · rename_i isRoot
      obtain ⟨needed, collected, offered⟩ := bind_ok_iff.mp offered
      obtain ⟨rfl, outcome⟩ := dropped _ offered
      exact .inr ⟨rfl, rfl, .inl ⟨isRoot, collected⟩, outcome⟩
    · rename_i below
      obtain ⟨rfl, outcome⟩ := dropped _ offered
      exact .inr ⟨rfl, rfl, .inr ⟨below, rfl⟩, outcome⟩
  | after =>
    cases pure_ok_iff.mp offered
    exact .inl ⟨rfl, rfl, rfl, rfl⟩

/-- The rule that inlines comes once. -/
theorem rule_ne (rules : (first ++ r :: rest).map (·.rule) = normalizing) {q : RuleState}
    (member : q ∈ first ++ rest) : q.rule ≠ r.rule := by
  have once : ((first ++ r :: rest).map (·.rule)).Nodup := rules ▸ by decide
  have once := (List.perm_middle.map (fun q : RuleState => q.rule)).nodup_iff.mp once
  rw [List.map_cons, List.nodup_cons] at once
  intro same
  exact once.1 (same ▸ List.mem_map_of_mem member)

/-- The variables that a rule that inlines goes by: they are collected at the root. -/
theorem Plan.NormalizesWithin.collected {vars vars' : VarSet}
    (within : s.plan.NormalizesWithin vars s.context.kept k)
    (found : vars' = if slot = .root then s.inlineable else r.vars)
    (known : r.vars.isEmpty = true ∨ r.vars = vars) :
    vars'.isEmpty = true ∨ s.plan.NormalizesWithin vars' s.context.kept k := by
  split at found
  · subst found
    refine .inr (within.fewer (fun v member => ?_) fun n reached v copied =>
      Session.mem_inlineable.mpr ⟨n, reached, copied⟩)
    obtain ⟨n, reached, copied⟩ := Session.mem_inlineable.mp member
    obtain ⟨rank, normalizes, _⟩ := within
    exact normalizes.inside n reached v copied
  · rcases known with empty | rfl
    · exact .inl (found ▸ empty)
    · exact .inr (found ▸ within)

theorem NormalizingBound.step (bound : NormalizingBound (first ++ r :: rest) s k)
    (offered : r.offer hook slot s = .ok (r', s', fired)) :
    fired = false ∧ NormalizingBound (first ++ r' :: rest) s' k ∨
      fired = true ∧ ∃ k' < k, NormalizingBound (first ++ r' :: rest) s' k' := by
  obtain ⟨rules, vars, inlines, within⟩ := bound
  have sameRules : r'.rule = r.rule → (first ++ r' :: rest).map (·.rule) = normalizing := by
    intro same
    rw [← rules]
    simp [same]
  have others : r'.rule = r.rule → r.rule ≠ .inlineVariables →
      ∀ q ∈ first ++ r' :: rest, q.Inlines vars := by
    intro same other q member
    rcases List.mem_append.mp member with before | after
    · exact inlines q (List.mem_append_left _ before)
    · rcases List.mem_cons.mp after with rfl | after
      · exact fun inlining => absurd (same.symm.trans inlining) other
      · exact inlines q (List.mem_append_right _ (List.mem_cons_of_mem _ after))
  have isRule : r.rule ∈ normalizing := rules ▸ List.mem_map_of_mem (by simp)
  simp only [normalizing, List.mem_cons, List.not_mem_nil, or_false] at isRule
  rcases isRule with rule | rule | rule
  · have isLocal : r.rule.transform? = some Plan.splitSelect := by rw [rule]; rfl
    obtain ⟨rfl, ⟨rfl, rfl⟩ | ⟨rfl, plan, done, rfl⟩⟩ := RuleState.offer_of_transform? isLocal offered
    · exact .inl ⟨rfl, rules, vars, inlines, within⟩
    · obtain ⟨k', less, within'⟩ := within.splitSelect done
      exact .inr ⟨rfl, k', less, rules, vars, inlines, within'⟩
  · rcases RuleState.offer_inlineVariables rule offered with ⟨rfl, rfl, rfl⟩ | ⟨same, found, done⟩
    · exact .inl ⟨rfl, rules, vars, inlines, within⟩
    · have alone : ∀ vars, r'.Inlines vars → ∀ q ∈ first ++ r' :: rest, q.Inlines vars := by
        intro vars' here q member
        rcases List.mem_cons.mp (List.perm_middle.mem_iff.mp member) with rfl | other
        · exact here
        · exact fun inlining => absurd (inlining.trans rule.symm) (rule_ne rules other)
      rcases within.collected found (inlines r (by simp) rule) with empty | within
      · cases Except.ok.inj ((if_pos empty).symm.trans done)
        exact .inl ⟨rfl, sameRules same, vars, alone vars fun _ => .inl empty, within⟩
      · have here := alone r'.vars fun _ => .inr rfl
        have stays := staysWithFacts_normalizes r'.vars k
        rcases Session.inlineAt_ok within (fun _ _ => stays.facts) done with
          ⟨rfl, within⟩ | ⟨rfl, _, s₁, id, renames, within, out, isRenamed, rfl⟩
        · exact .inl ⟨rfl, sameRules same, r'.vars, here, within⟩
        · obtain ⟨k', less, within⟩ := within.rename out isRenamed
          exact .inr ⟨rfl, k', less, sameRules same, r'.vars, here, within⟩
  · rcases RuleState.offer_dropUnusedAssigns rule offered with ⟨_, rfl, rfl, rfl⟩ |
      ⟨_, same, _, found, done, outcome⟩
    · exact .inl ⟨rfl, rules, vars, inlines, within⟩
    · cases found with
      | none =>
        cases outcome
        exact .inl ⟨rfl, sameRules same, vars, others same (by rw [rule]; decide), within⟩
      | some plan =>
        cases outcome
        obtain ⟨k', less, within'⟩ := within.dropUnusedAssigns done
        exact .inr ⟨rfl, k', less, sameRules same, vars, others same (by rw [rule]; decide), within'⟩

theorem RuleState.settles_offer_normalizing (isRule : r.rule ∈ normalizing) :
    Settles (r.offer hook slot s) := by
  obtain ⟨rule, vars, nodes⟩ := r
  simp only [normalizing, List.mem_cons, List.not_mem_nil, or_false] at isRule
  rcases isRule with rfl | rfl | rfl
  · have isLocal : Rule.splitSelect.transform? = some Plan.splitSelect := rfl
    exact RuleState.settles_offer isLocal
  · cases hook with
    | before => exact settles_bind (s.settles_inlineAt _ slot) fun _ => settles_pure _
    | after => exact settles_pure _
  · cases hook with
    | before =>
      have dropped : ∀ q : RuleState,
          Settles (do return q.outcome s (← s.plan.dropUnusedAssigns q.vars slot)) := fun q =>
        settles_bind (s.plan.settles_dropUnusedAssigns slot q.vars) fun _ => settles_pure _
      change Settles ((⟨.dropUnusedAssigns, vars, nodes⟩ : RuleState).before slot s)
      unfold RuleState.before
      dsimp only
      split
      · exact settles_bind s.plan.settles_neededVars fun _ => dropped _
      · exact dropped _
    | after => exact settles_pure _

/-- Normalization comes to rest. -/
theorem normalizing_falls : Falls NormalizingBound where
  settles hook slot bound := RuleState.settles_offer_normalizing
    (bound.1 ▸ List.mem_map_of_mem (by simp))
  keeps _ _ bound offered := by
    rcases bound.step offered with ⟨_, bound⟩ | ⟨impossible, _⟩
    · exact bound
    · cases impossible
  lowers _ _ bound offered refreshed := by
    rcases bound.step offered with ⟨impossible, _⟩ | ⟨_, k', less, rules, vars, inlines, within⟩
    · cases impossible
    · obtain ⟨plan, recomputed, refreshed⟩ := bind_ok_iff.mp refreshed
      cases pure_ok_iff.mp refreshed
      exact ⟨k', less, rules, vars, inlines,
        within.onlySchemas (Plan.refreshSchemas_only recomputed)⟩

end

end QueryOptimizer
