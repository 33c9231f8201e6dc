import Mathlib
import QueryOptimizer.Proofs.Plan.Edges

/-! # Loads of plans

A load gives every node a number and adds up the numbers of the nodes that edges lead to, over all
nodes of the plan and its root, and a number for each operator. Putting another node into a slot changes
the load by the difference of the two numbers, and another operator by the difference of theirs, so the
effect of a transformation on a load can be computed step by step.
-/

namespace QueryOptimizer

/-- A number for each operator, whatever its nested plans are. -/
structure Burden where
  of : Operator → Nat
  of_emptySource : of .emptySource = 0
  of_mapNested : ∀ op f, of (op.mapNested f) = of op

/-- Operators that add nothing. -/
def Burden.none : Burden := ⟨fun _ => 0, rfl, fun _ _ => rfl⟩

@[simp] theorem Burden.of_none (op : Operator) : none.of op = 0 := rfl

/-- The number of the operator of a node, and those of the children of the node. -/
def Node.load (b : Burden) (w : NodeId → Nat) (node : Node) : Nat :=
  b.of node.operator + ((node.inputs.map (·.2)).map w).sum + (node.operator.nested.flatten.map w).sum

theorem sum_map_set {α : Type} (f : α → Nat) {l : List α} {index : Nat} {old : α} (new : α)
    (found : l[index]? = some old) :
    ((l.set index new).map f).sum + f old = (l.map f).sum + f new := by
  induction l generalizing index with
  | nil => cases found
  | cons a l ih =>
    cases index with
    | zero =>
      cases Option.some.inj found
      simp only [List.set_cons_zero, List.map_cons, List.sum_cons]
      omega
    | succ index =>
      have rest := ih (by simpa using found)
      simp only [List.set_cons_succ, List.map_cons, List.sum_cons]
      omega

theorem sum_flatten_modify (f : NodeId → Nat) {nested : NestedPlans} {p index : Nat} {old : NodeId}
    (new : NodeId) (found : (nested[p]?).bind (·[index]?) = some old) :
    ((nested.modify p fun roots => roots.set index new).flatten.map f).sum + f old =
      (nested.flatten.map f).sum + f new := by
  induction nested generalizing p with
  | nil => simp at found
  | cons roots nested ih =>
    cases p with
    | zero =>
      have here := sum_map_set f new (show roots[index]? = some old by simpa using found)
      simp only [List.modify_zero_cons, List.flatten_cons, List.map_append, List.sum_append]
      omega
    | succ p =>
      have rest := ih (p := p) (by simpa using found)
      simp only [List.modify_succ_cons, List.flatten_cons, List.map_append, List.sum_append]
      omega

namespace Plan

variable {plan plan' : Plan} {slot : Slot} {n c old new : NodeId} {b b' : Burden}
  {w w' : NodeId → Nat} {node : Node}

/-- The sum of the numbers of all operators, of the root, and of the nodes that all edges lead to. -/
def load (plan : Plan) (b : Burden) (w : NodeId → Nat) : Nat :=
  w plan.root + ∑ n ∈ Finset.range plan.nodes.length, (plan.node n).load b w

theorem load_eq {bound : Nat} (large : plan.nodes.length ≤ bound) :
    plan.load b w = w plan.root + ∑ n ∈ Finset.range bound, (plan.node n).load b w := by
  refine congrArg _ (Finset.sum_subset (Finset.range_subset_range.mpr large) fun n _ outside => ?_)
  rw [node, node?_eq_none (by simpa using outside)]
  exact b.of_emptySource

/-- A change of one node changes what it adds only. -/
theorem load_changed (root : plan'.root = plan.root)
    (others : ∀ m, m ≠ n → plan'.node m = plan.node m) :
    plan'.load b w + (plan.node n).load b w = plan.load b w + (plan'.node n).load b w := by
  let bound := max (max plan.nodes.length plan'.nodes.length) (n + 1)
  have inside : n ∈ Finset.range bound := Finset.mem_range.mpr (Nat.le_max_right _ _)
  have before := load_eq (b := b) (w := w) (le_max_of_le_left (le_max_left _ _) : _ ≤ bound)
  have after := load_eq (b := b) (w := w) (le_max_of_le_left (le_max_right _ _) : _ ≤ bound)
  have rest : ∑ m ∈ (Finset.range bound).erase n, (plan'.node m).load b w =
      ∑ m ∈ (Finset.range bound).erase n, (plan.node m).load b w :=
    Finset.sum_congr rfl fun m member => by rw [others m (Finset.ne_of_mem_erase member)]
  rw [before, after, root, ← Finset.add_sum_erase _ _ inside, ← Finset.add_sum_erase _ _ inside, rest]
  ring

theorem load_modify {change : Node → Node} (present : plan.contains n = true) :
    (plan.modify n change).load b w + (plan.node n).load b w =
      plan.load b w + (change (plan.node n)).load b w := by
  rw [← node_modify_self (f := change) present]
  exact load_changed rfl fun m => node_modify_of_ne

theorem load_setInput (numbered : plan.Numbered) {index : Nat}
    (found : (plan.inputs n)[index]? = some old) (new : NodeId) :
    (plan.setInput n index new).load b w + w old = plan.load b w + w new := by
  obtain ⟨_, inputs⟩ := Node.insertInput_of_numbered new (numbered n) (lt_length_inputs found)
  have moved : (plan.setInput n index new).load b w + (plan.node n).load b w =
      plan.load b w + ((plan.node n).setInput index new).load b w :=
    load_modify (contains_of_input found)
  have sum : (((plan.inputs n).set index new).map w).sum + w old =
      ((plan.inputs n).map w).sum + w new := sum_map_set w new found
  have changed : ((plan.node n).setInput index new).load b w = b.of (plan.operator n) +
      (((plan.inputs n).set index new).map w).sum + ((plan.operator n).nested.flatten.map w).sum :=
    congrArg (fun ids => _ + (ids.map w).sum + _) inputs
  have before : (plan.node n).load b w = b.of (plan.operator n) + ((plan.inputs n).map w).sum +
      ((plan.operator n).nested.flatten.map w).sum := rfl
  omega

theorem load_setOperator {op : Operator} (present : plan.contains n = true)
    (nested : op.nested = (plan.operator n).nested) :
    (plan.setOperator n op).load b w + b.of (plan.operator n) = plan.load b w + b.of op := by
  have moved : (plan.setOperator n op).load b w + (plan.node n).load b w =
      plan.load b w + ((plan.node n).setOperator op).load b w := load_modify present
  have changed : ((plan.node n).setOperator op).load b w = b.of op + ((plan.inputs n).map w).sum +
      ((plan.operator n).nested.flatten.map w).sum := nested ▸ rfl
  have before : (plan.node n).load b w = b.of (plan.operator n) + ((plan.inputs n).map w).sum +
      ((plan.operator n).nested.flatten.map w).sum := rfl
  omega

/-- Putting another node into a slot changes the number of the slot only. -/
theorem load_setSlot (numbered : plan.Numbered) (here : plan.nodeAt slot = .ok old)
    (done : plan.setSlot slot new = .ok plan') :
    plan'.load b w + w old = plan.load b w + w new := by
  cases slot with
  | root =>
    cases Except.ok.inj here
    cases Except.ok.inj done
    unfold load
    dsimp only [node, node?]
    omega
  | input parent index =>
    cases Except.ok.inj done
    exact load_setInput numbered (input_ok_iff.mp here) new
  | nestedRoot owner p index =>
    have found := nodeAt_nestedRoot_ok_iff.mp here
    unfold setSlot at done
    simp only [found] at done
    cases done
    obtain ⟨roots, isPlan, _⟩ := Option.bind_eq_some_iff.mp found
    let replaced := (plan.operator owner).mapNested fun nested =>
      nested.modify p fun roots => roots.set index new
    have moved : (plan.setOperator owner replaced).load b w + (plan.node owner).load b w =
        plan.load b w + ((plan.node owner).setOperator replaced).load b w :=
      load_modify (contains_of_nested isPlan)
    have sum := sum_flatten_modify w new found
    have changed : ((plan.node owner).setOperator replaced).load b w = b.of (plan.operator owner) +
        ((plan.inputs owner).map w).sum + (((plan.operator owner).nested.modify p
          fun roots => roots.set index new).flatten.map w).sum := by
      have nested : replaced.nested = _ := nested_mapNested isPlan
      rw [← nested, ← b.of_mapNested]
      rfl
    have before : (plan.node owner).load b w = b.of (plan.operator owner) +
        ((plan.inputs owner).map w).sum + ((plan.operator owner).nested.flatten.map w).sum := rfl
    change (plan.setOperator owner replaced).load b w + w old = plan.load b w + w new
    omega

theorem load_addNode (tidy : plan.Tidy) (node : Node) :
    (plan.addNode node).1.load b w = plan.load b w + node.load b w := by
  obtain ⟨absent, added, others, root, _⟩ := addNode_spec tidy node
  have moved := load_changed (b := b) (w := w) root fun m other => node_eq_of_node?_eq (others m other)
  rw [Plan.node, absent, Plan.node, added] at moved
  exact (congrArg _ b.of_emptySource).symm.trans moved

theorem OnlySchemas.load (only : plan.OnlySchemas plan') : plan'.load b w = plan.load b w := by
  unfold Plan.load
  rw [only.root, only.length]
  refine congrArg _ (Finset.sum_congr rfl fun n _ => ?_)
  obtain ⟨schema, node⟩ := only.node n
  rw [node]
  rfl

theorem load_congr (root : w' plan.root = w plan.root)
    (children : ∀ n, ∀ c ∈ plan.children n, w' c = w c) : plan.load b w' = plan.load b w := by
  refine congrArg₂ (· + ·) root (Finset.sum_congr rfl fun n _ => congrArg₂ (_ + · + ·)
    (congrArg List.sum (List.map_congr_left fun c member => ?_))
    (congrArg List.sum (List.map_congr_left fun c member => ?_)))
  · exact children n c (List.mem_append_left _ member)
  · exact children n c (List.mem_append_right _ member)

theorem load_mono (smaller : ∀ op, b'.of op ≤ b.of op) : plan.load b' w ≤ plan.load b w :=
  Nat.add_le_add_left (Finset.sum_le_sum fun _ _ =>
    Nat.add_le_add_right (Nat.add_le_add_right (smaller _) _) _) _

/-- Numbers that are smaller make the load smaller, if an edge leads to a node that has less. -/
theorem load_lt (smaller : ∀ c, w' c ≤ w c) (isInput : c ∈ plan.inputs n) (less : w' c < w c) :
    plan.load b w' < plan.load b w := by
  have sums : ∀ ids : List NodeId, (ids.map w').sum ≤ (ids.map w).sum := fun _ =>
    List.sum_le_sum fun c _ => smaller c
  have inside := lt_of_contains (contains_of_mem isInput)
  refine Nat.add_lt_add_of_le_of_lt (smaller _) (Finset.sum_lt_sum (fun m _ => ?_)
    ⟨n, Finset.mem_range.mpr inside, ?_⟩)
  · exact Nat.add_le_add (Nat.add_le_add_left (sums _) _) (sums _)
  · exact Nat.add_lt_add_of_lt_of_le (Nat.add_lt_add_left
      (List.sum_lt_sum w' w (fun c _ => smaller c) ⟨c, isInput, less⟩) _) (sums _)

end Plan

end QueryOptimizer
