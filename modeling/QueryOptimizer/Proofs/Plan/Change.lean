import Mathlib
import QueryOptimizer.Proofs.Plan.Node

/-! # Changes of plans

What the nodes of a plan are after a node was added, or after another node was put into a slot.
-/

namespace QueryOptimizer

namespace Node

/-- Edges that are numbered from some position on. -/
theorem insertInput_of_range {edges : List (Nat × NodeId)} {start index : Nat} {input : NodeId}
    (numbered : edges.map (·.1) = List.range' start edges.length) (inside : index < edges.length) :
    (insertInput (start + index) input edges).map (·.1) = List.range' start edges.length ∧
      (insertInput (start + index) input edges).map (·.2) = (edges.map (·.2)).set index input := by
  induction edges generalizing start index with
  | nil => cases inside
  | cons edge edges ih =>
    obtain ⟨position, old⟩ := edge
    rw [List.map_cons, List.length_cons, List.range'_succ, List.cons.injEq] at numbered
    obtain ⟨rfl, rest⟩ := numbered
    cases index with
    | zero => simp [insertInput, rest, List.range'_succ]
    | succ index =>
      have later : position + (index + 1) = (position + 1) + index := by omega
      obtain ⟨positions, inputs⟩ := ih rest (Nat.lt_of_succ_lt_succ inside)
      have notHere : ¬ position + (index + 1) < position := by omega
      have notThis : ¬ position + (index + 1) = position := by omega
      rw [insertInput, if_neg notHere, if_neg notThis, later]
      simp [positions, inputs, List.range'_succ]

theorem insertInput_of_numbered {edges : List (Nat × NodeId)} {index : Nat} (input : NodeId)
    (numbered : edges.map (·.1) = List.range edges.length) (inside : index < edges.length) :
    (insertInput index input edges).map (·.1) = List.range edges.length ∧
      (insertInput index input edges).map (·.2) = (edges.map (·.2)).set index input := by
  rw [List.range_eq_range'] at numbered ⊢
  simpa using insertInput_of_range numbered inside

end Node

namespace Plan

variable {plan plan' : Plan} {id n input : NodeId} {index : Nat} {node : Node}

theorem contains_iff : plan.contains id = true ↔ ∃ node, plan.node? id = some node :=
  Option.isSome_iff_exists

theorem node_eq_of_node?_eq (same : plan'.node? n = plan.node? n) : plan'.node n = plan.node n := by
  unfold Plan.node
  rw [same]

theorem children_congr (same : plan'.node n = plan.node n) : plan'.children n = plan.children n := by
  unfold children Plan.inputs nestedRoots operator
  rw [same]

theorem contains_modify {f : Node → Node} : (plan.modify id f).contains n = plan.contains n := by
  unfold contains
  rw [node?_modify]
  split <;> simp

/-- Whether the vacant numbers have no nodes, and each is listed once. -/
structure Tidy (plan : Plan) : Prop where
  vacant : ∀ id ∈ plan.vacant, id < plan.nodes.length ∧ plan.node? id = none
  once : plan.vacant.Nodup

theorem Tidy.modify {f : Node → Node} (tidy : plan.Tidy) : (plan.modify id f).Tidy where
  vacant n member := by
    obtain ⟨small, absent⟩ := tidy.vacant n member
    refine ⟨by simpa [Plan.modify] using small, ?_⟩
    rw [node?_modify, absent]
    simp
  once := tidy.once

/-- A node that is added takes a number that had no node, and changes no other node. -/
theorem addNode_spec (tidy : plan.Tidy) (node : Node) :
    plan.node? (plan.addNode node).2 = none ∧
      (plan.addNode node).1.node? (plan.addNode node).2 = some node ∧
      (∀ n, n ≠ (plan.addNode node).2 → (plan.addNode node).1.node? n = plan.node? n) ∧
      (plan.addNode node).1.root = plan.root ∧ (plan.addNode node).1.Tidy := by
  unfold addNode
  split
  · rename_i id vacant listed
    have member : id ∈ plan.vacant := by
      rw [listed]
      exact List.mem_cons_self
    obtain ⟨small, absent⟩ := tidy.vacant id member
    have once : (id :: vacant).Nodup := listed ▸ tidy.once
    have others : ∀ n, n ≠ id →
        (plan.nodes.set id (some node))[n]?.join = plan.nodes[n]?.join := by
      intro n different
      rw [List.getElem?_set_ne (Ne.symm different)]
    refine ⟨absent, ?_, others, rfl, ?_⟩
    · simp [node?, List.getElem?_set_self small]
    · constructor
      · intro n inside
        have different : n ≠ id := fun same =>
          (List.nodup_cons.mp once).1 (same ▸ inside)
        obtain ⟨small', absent'⟩ := tidy.vacant n (by rw [listed]; exact List.mem_cons_of_mem _ inside)
        refine ⟨by simpa using small', ?_⟩
        exact (others n different).trans absent'
      · exact (List.nodup_cons.mp once).2
  · rename_i listed
    refine ⟨?_, ?_, ?_, rfl, ?_⟩
    · simp [node?]
    · simp [node?]
    · intro n different
      unfold node?
      rcases Nat.lt_or_ge n plan.nodes.length with small | large
      · rw [List.getElem?_append_left small]
      · have beyond : plan.nodes.length < n := Nat.lt_of_le_of_ne large (Ne.symm different)
        rw [List.getElem?_eq_none (by simpa using beyond), List.getElem?_eq_none large]
    · constructor
      · intro n inside
        rw [listed] at inside
        cases inside
      · rw [listed]
        exact List.nodup_nil

end Plan

/-- The node whose children a slot is one of. -/
def Slot.holder? : Slot → Option NodeId
  | .root => none
  | .input parent _ => some parent
  | .nestedRoot owner _ _ => some owner

/-- Whether one node stands where another one stood. -/
def Replaces (old new : NodeId) (x y : NodeId) : Prop := y = x ∨ x = old ∧ y = new

theorem Replaces.refl (old new x : NodeId) : Replaces old new x x := .inl rfl

theorem forall₂_replaces_self (old new : NodeId) (ids : List NodeId) :
    List.Forall₂ (Replaces old new) ids ids :=
  List.forall₂_same.mpr fun x _ => .refl old new x

theorem forall₂_replaces_set {old new : NodeId} {ids : List NodeId} {index : Nat}
    (found : ids[index]? = some old) : List.Forall₂ (Replaces old new) ids (ids.set index new) := by
  induction ids generalizing index with
  | nil => cases found
  | cons id ids ih =>
    cases index with
    | zero =>
      cases found
      exact .cons (.inr ⟨rfl, rfl⟩) (forall₂_replaces_self old new ids)
    | succ index => exact .cons (.refl old new id) (ih found)

theorem Operator.mapNested_eq (op : Operator) (f : NestedPlans → NestedPlans) :
    op.mapNested f = op.mapNested fun _ => f op.nested := by
  cases op <;> rfl

/-- Operators with the same fields, up to a replaced node among the nested roots. -/
def Operator.Rewires (old new : NodeId) (op op' : Operator) : Prop :=
  ∃ nested, op' = op.mapNested (fun _ => nested) ∧
    List.Forall₂ (List.Forall₂ (Replaces old new)) op.nested nested

theorem Operator.Rewires.refl (old new : NodeId) (op : Operator) : op.Rewires old new op := by
  refine ⟨op.nested, ?_, List.forall₂_same.mpr fun roots _ => forall₂_replaces_self old new roots⟩
  cases op <;> rfl

namespace Plan

variable {plan plan' : Plan} {slot : Slot} {old new n : NodeId}

theorem contains_of_input {index : Nat} (found : (plan.inputs n)[index]? = some old) :
    plan.contains n = true := by
  by_contra absent
  rw [inputs, node_of_absent absent] at found
  simp [default] at found

theorem contains_of_mem (member : old ∈ plan.inputs n) : plan.contains n = true := by
  obtain ⟨index, found⟩ := List.mem_iff_getElem?.mp member
  exact contains_of_input found

theorem nodeAt_nestedRoot_ok_iff {owner root : NodeId} {p index : Nat} :
    plan.nodeAt (.nestedRoot owner p index) = .ok root ↔
      ((plan.operator owner).nested[p]?).bind (·[index]?) = some root := by
  unfold nodeAt
  cases found : ((plan.operator owner).nested[p]?).bind (·[index]?) with
  | some root' => simp [found]
  | none =>
    simp only [found, reduceCtorEq, iff_false]
    exact bind_throw_ne_ok

/-- What is in a slot depends on the holder of the slot only. -/
theorem nodeAt_congr (root : plan'.root = plan.root) (same : ∀ holder, slot.holder? = some holder →
      plan'.inputs holder = plan.inputs holder ∧
        (plan'.operator holder).nested = (plan.operator holder).nested) :
    plan'.nodeAt slot = .ok n ↔ plan.nodeAt slot = .ok n := by
  cases slot with
  | root => rw [nodeAt, nodeAt, root]
  | input parent index => rw [nodeAt, nodeAt, input_ok_iff, input_ok_iff, (same parent rfl).1]
  | nestedRoot owner p index =>
    rw [nodeAt_nestedRoot_ok_iff, nodeAt_nestedRoot_ok_iff, (same owner rfl).2]

/-- A plan after another node was put into a slot. -/
structure Rewired (plan : Plan) (slot : Slot) (old new : NodeId) (plan' : Plan) : Prop where
  here : plan'.nodeAt slot = .ok new
  elsewhere : ∀ other, other ≠ slot → ∀ n, plan'.nodeAt other = .ok n ↔ plan.nodeAt other = .ok n
  root : Replaces old new plan.root plan'.root
  sameRoot : slot ≠ .root → plan'.root = plan.root
  others : ∀ n, slot.holder? ≠ some n → plan'.node n = plan.node n
  inputs : ∀ n, List.Forall₂ (Replaces old new) (plan.inputs n) (plan'.inputs n)
  positions : ∀ n, (plan'.node n).inputs.map (·.1) = (plan.node n).inputs.map (·.1)
  operator : ∀ n, (plan.operator n).Rewires old new (plan'.operator n)
  physical : ∀ n, (plan'.node n).physical = (plan.node n).physical
  mode : ∀ n, plan'.mode n = plan.mode n
  schema : ∀ n, (plan'.node n).schema = (plan.node n).schema ∨ (plan'.node n).schema = none
  contains : ∀ n, plan'.contains n = plan.contains n
  tidy : plan.Tidy → plan'.Tidy

theorem Rewired.setRoot (plan : Plan) (new : NodeId) :
    plan.Rewired .root plan.root new { plan with root := new } where
  here := rfl
  elsewhere other different n := by
    cases other with
    | root => exact absurd rfl different
    | input parent index =>
      rw [nodeAt, nodeAt, input_ok_iff, input_ok_iff]
      rfl
    | nestedRoot owner p index =>
      rw [nodeAt_nestedRoot_ok_iff, nodeAt_nestedRoot_ok_iff]
      rfl
  root := .inr ⟨rfl, rfl⟩
  sameRoot other := absurd rfl other
  others _ _ := rfl
  inputs n := forall₂_replaces_self _ _ (plan.inputs n)
  positions _ := rfl
  operator n := .refl _ _ (plan.operator n)
  physical _ := rfl
  mode _ := rfl
  schema _ := .inl rfl
  contains _ := rfl
  tidy tidy := ⟨tidy.vacant, tidy.once⟩

theorem Rewired.setInput {parent : NodeId} {index : Nat}
    (numbered : (plan.node parent).inputs.map (·.1) = List.range (plan.node parent).inputs.length)
    (found : (plan.inputs parent)[index]? = some old) :
    plan.Rewired (.input parent index) old new (plan.setInput parent index new) := by
  have inside : index < (plan.node parent).inputs.length := by
    have small := (List.getElem?_eq_some_iff.mp found).1
    rwa [Plan.inputs, List.length_map] at small
  obtain ⟨positions, inputs⟩ := Node.insertInput_of_numbered new numbered inside
  have nodes := fun n => node_modify_cases plan parent n (·.setInput index new)
  have atParent : (plan.setInput parent index new).inputs parent = (plan.inputs parent).set index new := by
    unfold Plan.inputs
    rw [Plan.setInput, node_modify_self (contains_of_input found)]
    exact inputs
  refine ⟨?_, ?_, .refl _ _ _, fun _ => rfl, ?_, ?_, ?_, ?_,
    fun n => node_modify_keeps Node.physical fun _ => rfl,
    fun n => node_modify_keeps Node.mode fun _ => rfl, ?_, fun n => contains_modify,
    fun tidy => tidy.modify⟩
  · rw [nodeAt, input_ok_iff, atParent, List.getElem?_set_self (List.getElem?_eq_some_iff.mp found).1]
  · intro other different n
    cases other with
    | root => exact Iff.rfl
    | input parent' index' =>
      rw [nodeAt, nodeAt, input_ok_iff, input_ok_iff]
      by_cases same : parent' = parent
      · subst same
        rw [atParent, List.getElem?_set_ne fun same => different (by rw [same])]
      · unfold Plan.inputs
        rw [Plan.setInput, node_modify_of_ne same]
    | nestedRoot owner p index' =>
      have same : (plan.setInput parent index new).operator owner = plan.operator owner :=
        operator_modify fun _ => rfl
      rw [nodeAt_nestedRoot_ok_iff, nodeAt_nestedRoot_ok_iff, same]
  · intro n other
    exact node_modify_of_ne fun same => other (congrArg some same.symm)
  · intro n
    by_cases same : n = parent
    · rw [same, atParent]
      exact forall₂_replaces_set found
    · unfold Plan.inputs
      rw [Plan.setInput, node_modify_of_ne same]
      exact forall₂_replaces_self _ _ _
  · intro n
    rcases nodes n with same | ⟨rfl, changed⟩
    · exact congrArg (fun node : Node => node.inputs.map (·.1)) same
    · rw [Plan.setInput, changed]
      exact positions.trans numbered.symm
  · intro n
    have same : (plan.setInput parent index new).operator n = plan.operator n :=
      operator_modify fun _ => rfl
    rw [same]
    exact .refl _ _ _
  · intro n
    rcases nodes n with same | ⟨_, changed⟩
    · exact .inl (congrArg Node.schema same)
    · rw [Plan.setInput, changed]
      exact .inr rfl

theorem forall₂_nested_set {nested : NestedPlans} {p index : Nat}
    (found : (nested[p]?).bind (·[index]?) = some old) :
    List.Forall₂ (List.Forall₂ (Replaces old new)) nested
      (nested.modify p fun roots => roots.set index new) := by
  induction nested generalizing p with
  | nil => simp at found
  | cons roots nested ih =>
    cases p with
    | zero =>
      refine .cons (forall₂_replaces_set (by simpa using found)) ?_
      exact List.forall₂_same.mpr fun roots _ => forall₂_replaces_self _ _ roots
    | succ p => exact .cons (forall₂_replaces_self _ _ roots) (ih (by simpa using found))

theorem contains_of_nested {roots : List NodeId} {p : Nat}
    (found : (plan.operator n).nested[p]? = some roots) : plan.contains n = true := by
  by_contra absent
  rw [operator, node_of_absent absent] at found
  simp [default, Operator.nested] at found

theorem nested_mapNested {op : Operator} {f : NestedPlans → NestedPlans} {roots : List NodeId}
    {p : Nat} (found : op.nested[p]? = some roots) : (op.mapNested f).nested = f op.nested := by
  cases op with
  | groupBy => rfl
  | subplan => rfl
  | _ => simp [Operator.nested] at found

theorem operator_setOperator_self {op : Operator} (present : plan.contains n = true) :
    (plan.setOperator n op).operator n = op := by
  unfold operator setOperator
  rw [node_modify_self present]
  rfl

theorem Rewired.setNestedRoot {owner : NodeId} {p index : Nat}
    (found : ((plan.operator owner).nested[p]?).bind (·[index]?) = some old) :
    plan.Rewired (.nestedRoot owner p index) old new (plan.setOperator owner
      ((plan.operator owner).mapNested fun nested =>
        nested.modify p fun roots => roots.set index new)) := by
  obtain ⟨roots, atPlan, atIndex⟩ := Option.bind_eq_some_iff.mp found
  refine ⟨?_, ?_, .refl _ _ _, fun _ => rfl, ?_, ?_,
    fun n => congrArg (List.map Prod.fst) (node_modify_keeps Node.inputs fun _ => rfl), ?_,
    fun n => node_modify_keeps Node.physical fun _ => rfl,
    fun n => node_modify_keeps Node.mode fun _ => rfl, ?_, fun n => contains_modify,
    fun tidy => tidy.modify⟩
  · rw [nodeAt_nestedRoot_ok_iff, operator_setOperator_self (contains_of_nested atPlan),
      nested_mapNested atPlan, List.getElem?_modify_eq, atPlan]
    have small := (List.getElem?_eq_some_iff.mp atIndex).1
    simp [small]
  · intro other different n
    cases other with
    | root => exact Iff.rfl
    | input parent index' =>
      have same : (plan.setOperator owner ((plan.operator owner).mapNested fun nested =>
          nested.modify p fun roots => roots.set index new)).inputs parent = plan.inputs parent :=
        inputs_modify fun _ => rfl
      rw [nodeAt, nodeAt, input_ok_iff, input_ok_iff, same]
    | nestedRoot owner' p' index' =>
      rw [nodeAt_nestedRoot_ok_iff, nodeAt_nestedRoot_ok_iff]
      by_cases same : owner' = owner
      · subst same
        rw [operator_setOperator_self (contains_of_nested atPlan), nested_mapNested atPlan]
        by_cases samePlan : p' = p
        · subst samePlan
          rw [List.getElem?_modify_eq, atPlan]
          have apart : index ≠ index' := fun same => different (by rw [same])
          simp [List.getElem?_set_ne apart]
        · rw [List.getElem?_modify_ne _ _ (Ne.symm samePlan)]
      · unfold Plan.operator
        rw [Plan.setOperator, node_modify_of_ne same]
  · intro n other
    exact node_modify_of_ne fun same => other (congrArg some same.symm)
  · intro n
    have same : (plan.setOperator owner ((plan.operator owner).mapNested fun nested =>
        nested.modify p fun roots => roots.set index new)).inputs n = plan.inputs n :=
      inputs_modify fun _ => rfl
    rw [same]
    exact forall₂_replaces_self _ _ _
  · intro n
    by_cases same : n = owner
    · rw [same, operator_setOperator_self (contains_of_nested atPlan)]
      exact ⟨_, Operator.mapNested_eq _ _, forall₂_nested_set found⟩
    · unfold Plan.operator
      rw [Plan.setOperator, node_modify_of_ne same]
      exact .refl _ _ _
  · intro n
    rcases node_setOperator_cases plan owner n _ with same | ⟨_, changed⟩
    · exact .inl (congrArg Node.schema same)
    · rw [changed]
      exact .inr rfl

/-- Putting a node into a slot. -/
theorem setSlot_rewired (numbered : ∀ parent index, slot = .input parent index →
      (plan.node parent).inputs.map (·.1) = List.range (plan.node parent).inputs.length)
    (here : plan.nodeAt slot = .ok old) (done : plan.setSlot slot new = .ok plan') :
    plan.Rewired slot old new plan' := by
  cases slot with
  | root =>
    cases here
    cases done
    exact .setRoot plan new
  | input parent index =>
    cases done
    exact .setInput (numbered parent index rfl) (input_ok_iff.mp here)
  | nestedRoot owner p index =>
    have found := nodeAt_nestedRoot_ok_iff.mp here
    unfold setSlot at done
    simp only [found] at done
    cases done
    exact .setNestedRoot found

/-- Plans that differ in schemas only. -/
structure OnlySchemas (plan plan' : Plan) : Prop where
  node : ∀ n, ∃ schema, plan'.node n = { plan.node n with schema := schema }
  root : plan'.root = plan.root
  length : plan'.nodes.length = plan.nodes.length
  contains : ∀ n, plan'.contains n = plan.contains n
  tidy : plan.Tidy → plan'.Tidy

namespace OnlySchemas

variable {plan'' : Plan} (only : plan.OnlySchemas plan')

theorem refl (plan : Plan) : plan.OnlySchemas plan :=
  ⟨fun n => ⟨(plan.node n).schema, rfl⟩, rfl, rfl, fun _ => rfl, fun tidy => tidy⟩

include only

theorem trans (later : plan'.OnlySchemas plan'') : plan.OnlySchemas plan'' where
  node n := by
    obtain ⟨first, same⟩ := only.node n
    obtain ⟨second, same'⟩ := later.node n
    exact ⟨second, by rw [same', same]⟩
  root := later.root.trans only.root
  length := later.length.trans only.length
  contains n := (later.contains n).trans (only.contains n)
  tidy tidy := later.tidy (only.tidy tidy)

theorem operator (n : NodeId) : plan'.operator n = plan.operator n := by
  obtain ⟨_, same⟩ := only.node n
  unfold Plan.operator
  rw [same]

theorem edges (n : NodeId) : (plan'.node n).inputs = (plan.node n).inputs := by
  obtain ⟨_, same⟩ := only.node n
  rw [same]

theorem inputs (n : NodeId) : plan'.inputs n = plan.inputs n :=
  congrArg (List.map Prod.snd) (only.edges n)

theorem nestedRoots (n : NodeId) : plan'.nestedRoots n = plan.nestedRoots n := by
  unfold Plan.nestedRoots
  rw [only.operator n]

theorem children (n : NodeId) : plan'.children n = plan.children n := by
  unfold Plan.children
  rw [only.inputs n, only.nestedRoots n]

theorem physical (n : NodeId) : (plan'.node n).physical = (plan.node n).physical := by
  obtain ⟨_, same⟩ := only.node n
  rw [same]

theorem hints (n : NodeId) : (plan'.node n).hints = (plan.node n).hints := by
  obtain ⟨_, same⟩ := only.node n
  rw [same]

theorem mode (n : NodeId) : plan'.mode n = plan.mode n := by
  obtain ⟨_, same⟩ := only.node n
  unfold Plan.mode
  rw [same]

theorem nodeAt (slot : Slot) (id : NodeId) : plan'.nodeAt slot = .ok id ↔ plan.nodeAt slot = .ok id :=
  nodeAt_congr only.root fun n _ => ⟨only.inputs n, congrArg Operator.nested (only.operator n)⟩

end OnlySchemas

theorem onlySchemas_modify (id : NodeId) (schema : Option (List Var)) :
    plan.OnlySchemas (plan.modify id fun node => { node with schema := schema }) where
  node n := by
    rcases node_modify_cases plan id n fun node => { node with schema := schema } with
      same | ⟨_, changed⟩
    · exact ⟨(plan.node n).schema, same⟩
    · exact ⟨schema, changed⟩
  root := rfl
  length := by simp [Plan.modify]
  contains _ := contains_modify
  tidy tidy := tidy.modify

theorem recomputeSchema_only {id : NodeId} (done : plan.recomputeSchema id = .ok plan') :
    plan.OnlySchemas plan' := by
  obtain ⟨vs, _, done⟩ := bind_ok_iff.mp done
  cases pure_ok_iff.mp done
  exact onlySchemas_modify id (some vs)

theorem refreshSchemas_only (done : plan.refreshSchemas = .ok plan') : plan.OnlySchemas plan' :=
  foldlM_keeps (fun later => plan.OnlySchemas later)
    (fun _ _ _ _ only done => only.trans (recomputeSchema_only done)) (.refl plan) done

end Plan

end QueryOptimizer
