import Mathlib
import QueryOptimizer.Proofs.Plan.Garbage
import QueryOptimizer.Proofs.Plan.Redrawn

/-! # Operators on edges

An operator that passes its input on is put on an edge. The plan stays well formed, and everything
that led somewhere still does.
-/

namespace QueryOptimizer

/-- Whether an operator passes on all tuples of its one input. -/
def Operator.Passes (op : Operator) : Prop :=
  op = .exchange ∨ ∃ columns, op = .order columns none

namespace Operator.Passes

variable {op : Operator} (passes : op.Passes)

include passes

theorem arity : op.arity = 1 := by
  rcases passes with rfl | ⟨_, rfl⟩ <;> rfl

theorem plain : op.IsPlain := by
  rcases passes with rfl | ⟨_, rfl⟩ <;> trivial

theorem schema (vs : List Var) : op.schema [vs] [] = vs := by
  rcases passes with rfl | ⟨_, rfl⟩ <;> rfl

end Operator.Passes

namespace Plan

variable {plan plan' plan'' : Plan} {parent input new n m c owner : NodeId} {index : Nat} {node : Node}
  {rank : NodeId → Nat}

/-- A plan with a new node on the edge from a node to one of its inputs. -/
structure Wedged (plan : Plan) (parent : NodeId) (index : Nat) (input new : NodeId) (node : Node)
    (plan' : Plan) : Prop where
  root : plan'.root = plan.root
  tidy : plan'.Tidy
  fresh : plan.contains new = false
  present : plan.contains parent = true
  found : (plan.inputs parent)[index]? = some input
  stands : plan'.Stands new node.operator [input]
  newMode : plan'.mode new = node.mode
  newPhysical : (plan'.node new).physical = node.physical
  inputs : plan'.inputs parent = (plan.inputs parent).set index new
  positions : ∀ n, n ≠ new → (plan'.node n).inputs.map (·.1) = (plan.node n).inputs.map (·.1)
  others : ∀ n, n ≠ new → n ≠ parent → plan'.inputs n = plan.inputs n
  contains : ∀ n, n ≠ new → plan'.contains n = plan.contains n
  operator : ∀ n, n ≠ new → plan'.operator n = plan.operator n
  mode : ∀ n, n ≠ new → plan'.mode n = plan.mode n
  physical : ∀ n, n ≠ new → (plan'.node n).physical = (plan.node n).physical

theorem Wedged.onlySchemas (wedged : plan.Wedged parent index input new node plan')
    (only : plan'.OnlySchemas plan'') : plan.Wedged parent index input new node plan'' where
  root := only.root.trans wedged.root
  tidy := only.tidy wedged.tidy
  fresh := wedged.fresh
  present := wedged.present
  found := wedged.found
  stands := wedged.stands.onlySchemas only
  newMode := (only.mode new).trans wedged.newMode
  newPhysical := (only.physical new).trans wedged.newPhysical
  inputs := (only.inputs parent).trans wedged.inputs
  positions n different := by
    rw [only.edges]
    exact wedged.positions n different
  others n different other := (only.inputs n).trans (wedged.others n different other)
  contains n different := (only.contains n).trans (wedged.contains n different)
  operator n different := (only.operator n).trans (wedged.operator n different)
  mode n different := (only.mode n).trans (wedged.mode n different)
  physical n different := (only.physical n).trans (wedged.physical n different)

/-- A new node over an input takes the place of the input. -/
theorem wedged_addNode (wellFormed : plan.WellFormed) (reached : plan.Reaches parent)
    (found : (plan.inputs parent)[index]? = some input)
    (edges : node.inputs = (List.range [input].length).zip [input]) :
    plan.Wedged parent index input (plan.addNode node).2 node
      ((plan.addNode node).1.setInput parent index (plan.addNode node).2) := by
  obtain ⟨absent, added, others, root, tidy⟩ := addNode_spec wellFormed.tidy node
  generalize (plan.addNode node).1 = grown, (plan.addNode node).2 = new at *
  have present := wellFormed.present parent reached
  have isNew : plan.contains new = false := congrArg Option.isSome absent
  have different : new ≠ parent := by
    rintro rfl
    exact Bool.noConfusion (isNew.symm.trans present)
  have stands : plan.Stands parent (plan.operator parent) (plan.inputs parent) :=
    .of_wellFormed wellFormed reached
  have standsParent := stands.congr (others parent (Ne.symm different))
  have inside : index < (plan.inputs parent).length := (List.getElem?_eq_some_iff.mp found).1
  have after := standsParent.setInput inside new
  have newNode : (grown.setInput parent index new).node new = node :=
    (node_modify_of_ne different).trans (node_of_node? added)
  have sameNode : ∀ n, n ≠ new → grown.node n = plan.node n := fun n other =>
    node_eq_of_node?_eq (others n other)
  have otherNode : ∀ n, n ≠ new → n ≠ parent →
      (grown.setInput parent index new).node n = plan.node n := fun n other notParent =>
    (node_modify_of_ne notParent).trans (sameNode n other)
  have kept : ∀ {α : Type} (part : Node → α), (∀ node, part (node.setInput index new) = part node) →
      ∀ n, n ≠ new → part ((grown.setInput parent index new).node n) = part (plan.node n) :=
    fun part keeps n other => (node_modify_keeps part keeps).trans (congrArg part (sameNode n other))
  refine ⟨root, tidy.modify, isNew, present, found, ⟨node, ?_, rfl, edges⟩, ?_, ?_, after.inputs, ?_,
    ?_, ?_, kept Node.operator fun _ => rfl, kept Node.mode fun _ => rfl,
    kept Node.physical fun _ => rfl⟩
  · unfold setInput
    rw [node?_modify, if_neg different, added]
  · unfold Plan.mode
    rw [newNode]
  · rw [newNode]
  · intro n other
    by_cases isParent : n = parent
    · subst isParent
      rw [after.numbered, stands.numbered]
      have length : ∀ {p : Plan} {xs : List NodeId}, p.inputs n = xs →
          (p.node n).inputs.length = xs.length := by
        rintro p xs rfl
        simp [Plan.inputs]
      rw [length after.inputs, length stands.inputs, List.length_set]
    · rw [otherNode n other isParent]
  · exact fun n other notParent => inputs_congr (otherNode n other notParent)
  · intro n other
    unfold Plan.setInput
    rw [contains_modify]
    unfold Plan.contains
    rw [others n other]

namespace Wedged

variable (wedged : plan.Wedged parent index input new node plan')

include wedged

theorem ne_parent : parent ≠ new := by
  rintro rfl
  exact Bool.noConfusion (wedged.fresh.symm.trans wedged.present)

theorem inputs_new : plan'.inputs new = [input] := wedged.stands.inputs

theorem nestedRoots_old (different : n ≠ new) : plan'.nestedRoots n = plan.nestedRoots n := by
  unfold nestedRoots
  rw [wedged.operator n different]

/-- The inputs of an old node are those that it had, but for the new node. -/
theorem mem_inputs (different : n ≠ new) (member : c ∈ plan'.inputs n) :
    c ∈ plan.inputs n ∨ n = parent ∧ c = new := by
  by_cases isParent : n = parent
  · subst isParent
    rw [wedged.inputs] at member
    exact (List.mem_or_eq_of_mem_set member).imp_right fun same => ⟨rfl, same⟩
  · exact .inl (wedged.others n different isParent ▸ member)

/-- An edge is still there, or has the new node on it. -/
theorem mem_inputs_kept (different : n ≠ new) (member : c ∈ plan.inputs n) :
    c ∈ plan'.inputs n ∨ n = parent ∧ c = input ∧ new ∈ plan'.inputs n := by
  by_cases isParent : n = parent
  · subst isParent
    rw [wedged.inputs]
    obtain ⟨k, found⟩ := List.mem_iff_getElem?.mp member
    by_cases same : index = k
    · subst same
      have inside := (List.getElem?_eq_some_iff.mp found).1
      exact .inr ⟨rfl, Option.some.inj (found.symm.trans wedged.found), List.mem_set inside new⟩
    · exact .inl (List.mem_of_getElem? ((List.getElem?_set_ne same).trans found))
  · exact .inl (wedged.others n different isParent ▸ member)

theorem child_cases (different : n ≠ new) (member : c ∈ plan'.children n) :
    c ∈ plan.children n ∨ n = parent ∧ c = new := by
  rcases List.mem_append.mp member with isInput | isRoot
  · exact (wedged.mem_inputs different isInput).imp_left (List.mem_append_left _)
  · rw [wedged.nestedRoots_old different] at isRoot
    exact .inl (List.mem_append_right _ isRoot)

section Reaching

variable (wellFormed : plan.WellFormed) (reached : plan.Reaches parent)

include wellFormed

theorem ne_new (reached : plan.Reaches n) : n ≠ new := by
  rintro rfl
  exact Bool.noConfusion (wedged.fresh.symm.trans (wellFormed.present n reached))

/-- Everything that led somewhere still does. -/
theorem below (reached : plan.Reaches n) (path : plan.Below n m) : plan'.Below n m := by
  induction path with
  | refl => exact .refl
  | @tail middle m path member ih =>
    have different := wedged.ne_new wellFormed (reached.trans path : plan.Reaches middle)
    rcases List.mem_append.mp member with isInput | isRoot
    · rcases wedged.mem_inputs_kept different isInput with kept | ⟨_, rfl, isNew⟩
      · exact ih.child (List.mem_append_left _ kept)
      · refine (ih.child (List.mem_append_left _ isNew)).child (List.mem_append_left _ ?_)
        rw [wedged.inputs_new]
        exact List.mem_singleton_self _
    · rw [← wedged.nestedRoots_old different] at isRoot
      exact ih.child (List.mem_append_right _ isRoot)

theorem reaches (reached : plan.Reaches n) : plan'.Reaches n := by
  unfold Reaches
  rw [wedged.root]
  exact wedged.below wellFormed .refl reached

include reached

omit wellFormed in
theorem reaches_input : plan.Reaches input := reached.input (List.mem_of_getElem? wedged.found)

theorem reaches_new : plan'.Reaches new := by
  refine (wedged.reaches wellFormed reached).input ?_
  rw [wedged.inputs]
  exact List.mem_set (List.getElem?_eq_some_iff.mp wedged.found).1 new

variable (passes : node.operator.Passes)

include passes

omit wellFormed reached in
theorem nestedRoots_new : plan'.nestedRoots new = [] := by
  unfold nestedRoots
  rw [wedged.stands.operator]
  exact passes.plain.simple.1

omit wellFormed reached in
theorem children_new : plan'.children new = [input] := by
  unfold children
  rw [wedged.inputs_new, wedged.nestedRoots_new passes, List.append_nil]

omit wellFormed in
theorem reaches_cases (reached' : plan'.Reaches n) : n = new ∨ plan.Reaches n := by
  refine Below.of_closed (P := fun n => n = new ∨ plan.Reaches n) ?_ ?_ reached'
  · rw [wedged.root]
    exact .inr .refl
  · intro n known c member
    by_cases isNew : n = new
    · subst isNew
      rw [wedged.children_new passes] at member
      cases List.mem_singleton.mp member
      exact .inr (wedged.reaches_input reached)
    · have reachedN := known.resolve_left isNew
      rcases wedged.child_cases isNew member with kept | ⟨_, rfl⟩
      · exact .inr (reachedN.child kept)
      · exact .inl rfl

omit wellFormed reached in
theorem operator_source (source : plan'.operator n = .nestedSource owner) :
    n ≠ new ∧ plan.operator n = .nestedSource owner := by
  have different : n ≠ new := by
    rintro rfl
    rw [wedged.stands.operator] at source
    exact passes.plain.simple.2 owner source
  exact ⟨different, wedged.operator n different ▸ source⟩

theorem reads_cases (reads : plan'.Reads owner n) : (n = new → plan.Reads owner input) ∧
    (plan.Reaches n → plan.Reads owner n) := by
  induction reads with
  | source source =>
    obtain ⟨different, source⟩ := wedged.operator_source passes source
    exact ⟨fun isNew => absurd isNew different, fun _ => .source source⟩
  | @input n c member reads ih =>
    refine ⟨fun isNew => ?_, fun reachedN => ?_⟩
    · subst isNew
      rw [wedged.inputs_new] at member
      cases List.mem_singleton.mp member
      exact ih.2 (wedged.reaches_input reached)
    · have different := wedged.ne_new wellFormed reachedN
      rcases wedged.mem_inputs different member with kept | ⟨rfl, isNew⟩
      · exact .input kept (ih.2 (reachedN.input kept))
      · exact .input (List.mem_of_getElem? wedged.found) (ih.1 isNew)

/-- The sources of an old node are those that it had, but for the new node. -/
theorem source_cases (reachedN : plan.Reaches n) (source : c ∈ plan'.sources n) :
    c ∈ plan.sources n ∨ input ∈ plan.sources n ∧ c = new := by
  have different := wedged.ne_new wellFormed reachedN
  rcases mem_sources_iff.mp source with child | ⟨owner, operator, found⟩
  · rcases wedged.child_cases different child with kept | ⟨rfl, isNew⟩
    · exact .inl (mem_sources_of_child kept)
    · exact .inr ⟨mem_sources_of_input (List.mem_of_getElem? wedged.found), isNew⟩
  · obtain ⟨_, operator⟩ := wedged.operator_source passes operator
    obtain ⟨reachedOwner, _⟩ := wellFormed.reaches_of_reads reachedN (.source operator)
    have other := wedged.ne_new wellFormed reachedOwner
    by_cases isParent : owner = parent
    · subst isParent
      rw [wedged.inputs, List.getElem?_set] at found
      by_cases first : index = 0
      · subst first
        have isNew : c = new := by
          simp only [if_true] at found
          split at found
          · exact (Option.some.inj found).symm
          · cases found
        exact .inr ⟨mem_sources_iff.mpr (.inr ⟨owner, operator, wedged.found⟩), isNew⟩
      · rw [if_neg first] at found
        exact .inl (mem_sources_iff.mpr (.inr ⟨owner, operator, found⟩))
    · rw [wedged.others owner other isParent] at found
      exact .inl (mem_sources_iff.mpr (.inr ⟨owner, operator, found⟩))

/-- The new node is ranked right above its input. -/
theorem acyclic : ∃ rank, plan'.RankedBy rank := by
  classical
  obtain ⟨rank, falls⟩ := wellFormed.acyclic
  refine ⟨fun n => if n = new then 2 * rank input + 1 else 2 * rank n, fun n reached' c source => ?_⟩
  have inputOld := wedged.ne_new wellFormed (wedged.reaches_input reached)
  rcases wedged.reaches_cases reached passes reached' with rfl | reachedN
  · have child : c ∈ plan'.children n := (mem_sources_iff.mp source).resolve_right
      fun ⟨owner, operator, _⟩ => (wedged.operator_source passes operator).1 rfl
    rw [wedged.children_new passes] at child
    cases List.mem_singleton.mp child
    dsimp only
    rw [if_neg inputOld, if_pos rfl]
    omega
  · have different := wedged.ne_new wellFormed reachedN
    dsimp only
    rw [if_neg different]
    rcases wedged.source_cases wellFormed reached passes reachedN source with kept | ⟨had, rfl⟩
    · have old := wedged.ne_new wellFormed (wellFormed.reaches_source reachedN kept)
      have lower := falls n reachedN c kept
      rw [if_neg old]
      omega
    · have lower := falls n reachedN input had
      rw [if_pos rfl]
      omega

end Reaching

theorem wellFormed (before : plan.WellFormed) (reached : plan.Reaches parent)
    (passes : node.operator.Passes) : plan'.WellFormed where
  tidy := wedged.tidy
  present n reached' := by
    rcases wedged.reaches_cases reached passes reached' with rfl | reachedN
    · exact wedged.stands.contains
    · rw [wedged.contains n (wedged.ne_new before reachedN)]
      exact before.present n reachedN
  numbered n reached' := by
    rcases wedged.reaches_cases reached passes reached' with rfl | reachedN
    · exact wedged.stands.numbered
    · have positions := wedged.positions n (wedged.ne_new before reachedN)
      have length := congrArg List.length positions
      simp only [List.length_map] at length
      rw [positions, length]
      exact before.numbered n reachedN
  arity n reached' := by
    rcases wedged.reaches_cases reached passes reached' with rfl | reachedN
    · rw [wedged.inputs_new, wedged.stands.operator, passes.arity]
      rfl
    · have different := wedged.ne_new before reachedN
      rw [wedged.operator n different, ← before.arity n reachedN]
      by_cases isParent : n = parent
      · subst isParent
        rw [wedged.inputs, List.length_set]
      · rw [wedged.others n different isParent]
  acyclic := wedged.acyclic before reached passes
  top owner reads := by
    rw [wedged.root] at reads
    exact before.top owner ((wedged.reads_cases before reached passes reads).2 .refl)
  innermost n r owner reached' isRoot reads := by
    rcases wedged.reaches_cases reached passes reached' with rfl | reachedN
    · rw [wedged.nestedRoots_new passes] at isRoot
      cases isRoot
    · rw [wedged.nestedRoots_old (wedged.ne_new before reachedN)] at isRoot
      exact before.innermost n r owner reachedN isRoot
        ((wedged.reads_cases before reached passes reads).2 (reachedN.nestedRoot isRoot))

end Wedged

end Plan

end QueryOptimizer
