import Mathlib
import QueryOptimizer.Proofs.Plan.Layer
import QueryOptimizer.Proofs.Relational.Operators
import QueryOptimizer.Transform.Limits

/-! # What the transformations of selects change

Each transformation of a well-formed plan changes or adds a layer of nodes at its slot. The theorems
say which operators the nodes of the layer have, and over which inputs.
-/

namespace QueryOptimizer.Plan

variable {plan plan' mid : Plan} {slot : Slot} {id child join n x y : NodeId} {condition : Expr}

theorem nestedRoots_of_plain (plain : (plan.operator n).IsPlain) : plan.nestedRoots n = [] :=
  plain.simple.1

theorem WellFormed.ne_of_input (wellFormed : plan.WellFormed) (reached : plan.Reaches n)
    (input : x ∈ plan.inputs n) : x ≠ n := by
  obtain ⟨rank, falls⟩ := wellFormed.acyclic
  rintro rfl
  exact Nat.lt_irrefl _ (falls x reached x (mem_sources_of_input input))

theorem Feeds.two (first : x ∈ plan.inputs n) (second : y ∈ plan.inputs x) : plan.Feeds n y :=
  Relation.TransGen.tail (.single first) second

/-! ## When a transformation applies -/

/-- A select that may be moved is deterministic, and its input has no other parent. -/
theorem movableSelect_some (movable : plan.movableSelect id = .ok (some (condition, child))) :
    plan.operator id = .select condition ∧ condition.isDeterministic = true ∧
      (plan.inputs id)[0]? = some child ∧ plan.isShared child = false := by
  unfold movableSelect at movable
  split at movable
  · rename_i found operator
    split at movable
    · rename_i deterministic
      obtain ⟨input, isInput, movable⟩ := bind_ok_iff.mp movable
      have movable := pure_ok_iff.mp movable
      split at movable
      · cases movable
      · rename_i single
        cases movable
        exact ⟨operator, deterministic, input_ok_iff.mp isInput, by simpa using single⟩
    · cases pure_ok_iff.mp movable
  · cases pure_ok_iff.mp movable

/-- The side of a join that gets a select has all variables that the select reads. -/
theorem selectJoinInput_some {sides : List Nat}
    (done : plan.selectJoinInput slot join condition sides = .ok (some plan')) :
    ∃ side ∈ sides, ∃ input schema, (plan.inputs join)[side]? = some input ∧
      plan.schema input = .ok schema ∧ (∀ v ∈ condition.usedVars, v ∈ schema) ∧
      ((plan.add (.select condition) [input]).1.setInput join side
        (plan.add (.select condition) [input]).2).setSlot slot join = .ok plan' := by
  induction sides with
  | nil => cases done
  | cons side sides ih =>
    unfold selectJoinInput at done
    obtain ⟨input, isInput, done⟩ := bind_ok_iff.mp done
    obtain ⟨schema, computed, done⟩ := bind_ok_iff.mp done
    split at done
    · rename_i all
      obtain ⟨final, placed, done⟩ := bind_ok_iff.mp done
      cases pure_ok_iff.mp done
      exact ⟨side, List.mem_cons_self, input, schema, input_ok_iff.mp isInput, computed,
        by simpa using all, placed⟩
    · obtain ⟨side, member, rest⟩ := ih done
      exact ⟨side, List.mem_cons_of_mem _ member, rest⟩

/-- What a select that is pushed passes: an operator that it changes places with, or a side of a
    join. -/
theorem pushSelect_some (done : plan.pushSelect slot = .ok (some plan')) :
    ∃ id condition child, plan.nodeAt slot = .ok id ∧
      plan.movableSelect id = .ok (some (condition, child)) ∧
      ((((∃ vars, plan.operator child = .project vars) ∨
          (∃ keys, plan.operator child = .order keys none) ∨ plan.operator child = .exchange ∨
          ∃ vars exprs, plan.operator child = .assign vars exprs ∧
            ∀ v ∈ condition.usedVars, v ∉ vars) ∧
        plan.swapWithInput slot id child = .ok plan') ∨
      ((∃ joined, plan.operator child = .join .inner joined) ∧
        plan.selectJoinInput slot child condition [0, 1] = .ok (some plan')) ∨
      (∃ joined, plan.operator child = .join .leftOuter joined) ∧
        plan.selectJoinInput slot child condition [0] = .ok (some plan')) := by
  obtain ⟨id, here, done⟩ := bind_ok_iff.mp done
  obtain ⟨movable, found, done⟩ := bind_ok_iff.mp done
  cases movable with
  | none => cases pure_ok_iff.mp done
  | some entry =>
    obtain ⟨condition, child⟩ := entry
    refine ⟨id, condition, child, here, found, ?_⟩
    have swapped : (do return some (← plan.swapWithInput slot id child)) = Except.ok (some plan') →
        plan.swapWithInput slot id child = .ok plan' := by
      intro done
      obtain ⟨final, swapped, done⟩ := bind_ok_iff.mp done
      cases pure_ok_iff.mp done
      exact swapped
    dsimp only at done
    split at done
    · exact .inl ⟨.inl ⟨_, ‹_›⟩, swapped done⟩
    · exact .inl ⟨.inr (.inl ⟨_, ‹_›⟩), swapped done⟩
    · exact .inl ⟨.inr (.inr (.inl ‹_›)), swapped done⟩
    · split at done
      · cases pure_ok_iff.mp done
      · rename_i vars exprs operator apart
        refine .inl ⟨.inr (.inr (.inr ⟨vars, exprs, operator, ?_⟩)), swapped done⟩
        simpa using apart
    · exact .inr (.inl ⟨⟨_, ‹_›⟩, done⟩)
    · exact .inr (.inr ⟨⟨_, ‹_›⟩, done⟩)
    · cases pure_ok_iff.mp done

theorem mergeSelectIntoJoin_some (done : plan.mergeSelectIntoJoin slot = .ok (some plan')) :
    ∃ id condition join joined, plan.nodeAt slot = .ok id ∧
      plan.movableSelect id = .ok (some (condition, join)) ∧
      plan.operator join = .join .inner joined ∧
      (plan.setOperator join (.join .inner (.conjunction
        ((joined.conjuncts ++ condition.conjuncts).filter (!·.isTrue))))).setSlot slot join =
          .ok plan' := by
  obtain ⟨id, here, done⟩ := bind_ok_iff.mp done
  obtain ⟨movable, found, done⟩ := bind_ok_iff.mp done
  cases movable with
  | none => cases pure_ok_iff.mp done
  | some entry =>
    obtain ⟨condition, join⟩ := entry
    dsimp only at done
    split at done
    · rename_i joined operator
      obtain ⟨_, _, done⟩ := bind_ok_iff.mp done
      obtain ⟨_, _, done⟩ := bind_ok_iff.mp done
      obtain ⟨_, _, done⟩ := bind_ok_iff.mp done
      obtain ⟨_, _, done⟩ := bind_ok_iff.mp done
      split at done
      · cases pure_ok_iff.mp done
      · obtain ⟨final, placed, done⟩ := bind_ok_iff.mp done
        cases pure_ok_iff.mp done
        exact ⟨id, condition, join, joined, here, found, operator, placed⟩
    · cases pure_ok_iff.mp done

theorem mergeSelects_some (done : plan.mergeSelects slot = .ok (some plan')) :
    ∃ outer inner input condition innerCondition, plan.nodeAt slot = .ok outer ∧
      (plan.inputs outer)[0]? = some inner ∧ (plan.inputs inner)[0]? = some input ∧
      plan.operator outer = .select condition ∧ plan.operator inner = .select innerCondition ∧
      plan' = (plan.setOperator outer (.select (.conjunction
        (condition.conjuncts ++ innerCondition.conjuncts)))).setInput outer 0 input := by
  obtain ⟨outer, here, done⟩ := bind_ok_iff.mp done
  obtain ⟨inner, isInput, done⟩ := bind_ok_iff.mp done
  split at done
  · rename_i condition innerCondition first second
    obtain ⟨input, isBelow, done⟩ := bind_ok_iff.mp done
    cases pure_ok_iff.mp done
    exact ⟨outer, inner, input, condition, innerCondition, here, input_ok_iff.mp isInput,
      input_ok_iff.mp isBelow, first, second, rfl⟩
  · cases pure_ok_iff.mp done

theorem splitSelect_some (done : plan.splitSelect slot = .ok (some plan')) :
    ∃ id condition top next rest, plan.nodeAt slot = .ok id ∧
      plan.operator id = .select condition ∧ condition.conjuncts = top :: next :: rest := by
  obtain ⟨id, here, done⟩ := bind_ok_iff.mp done
  split at done
  · rename_i condition operator
    split at done
    · rename_i top next rest conjuncts
      exact ⟨id, condition, top, next, rest, here, operator, conjuncts⟩
    · cases pure_ok_iff.mp done
  · cases pure_ok_iff.mp done

/-! ## Chains of selects -/

/-- A chain of selects over an input, one for each condition, the first on top. The nodes are listed
    from below. -/
inductive SelectChain (plan : Plan) (input : NodeId) : List Expr → List NodeId → NodeId → Prop where
  | nil : SelectChain plan input [] [] input
  | cons {condition : Expr} {conditions : List Expr} {chain : List NodeId} {below n : NodeId}
      (rest : SelectChain plan input conditions chain below) (new : n ∉ chain)
      (stands : plan.Stands n (.select condition) [below]) :
      SelectChain plan input (condition :: conditions) (chain ++ [n]) n

namespace SelectChain

variable {input top : NodeId} {conditions : List Expr} {chain : List NodeId}

variable (selects : plan.SelectChain input conditions chain top)

include selects

theorem congr (same : ∀ n ∈ chain, plan'.node? n = plan.node? n) :
    plan'.SelectChain input conditions chain top := by
  induction selects with
  | nil => exact .nil
  | cons _ new stands ih =>
    exact .cons (ih fun n member => same n (List.mem_append_left _ member)) new
      (stands.congr (same _ (List.mem_append_right _ List.mem_cons_self)))

theorem top_mem : top ∈ [input] ∨ top ∈ chain := by
  cases selects with
  | nil => exact .inl List.mem_cons_self
  | cons => exact .inr (List.mem_append_right _ List.mem_cons_self)

theorem layered : plan.Layered [input] chain := by
  induction selects with
  | nil => exact .nil
  | cons rest new stands ih =>
    refine ih.snoc new fun c member => ?_
    rw [stands.inputs] at member
    cases List.mem_singleton.mp member
    exact rest.top_mem

theorem fit : ∀ n ∈ chain, plan.Fit n := by
  induction selects with
  | nil => intro n impossible; cases impossible
  | cons _ _ stands ih =>
    intro n member
    rcases List.mem_append.mp member with old | last
    · exact ih n old
    · cases List.mem_singleton.mp last
      exact stands.fit rfl trivial

theorem covers : ∀ n, n ∈ chain ∨ n ∈ [input] → n = top ∨ ∃ parent ∈ chain, n ∈ plan.inputs parent := by
  induction selects with
  | nil =>
    rintro n (impossible | isInput)
    · cases impossible
    · exact .inl (List.mem_singleton.mp isInput)
  | @cons condition conditions chain below top _ _ stands ih =>
    have isTop : top ∈ chain ++ [top] := List.mem_append_right _ List.mem_cons_self
    have under : ∀ n, n ∈ chain ∨ n ∈ [input] →
        ∃ parent ∈ chain ++ [top], n ∈ plan.inputs parent := by
      intro n member
      rcases ih n member with rfl | ⟨parent, inside, isInput⟩
      · exact ⟨top, isTop, by simp [stands.inputs]⟩
      · exact ⟨parent, List.mem_append_left _ inside, isInput⟩
    rintro n (member | isInput)
    · rcases List.mem_append.mp member with old | last
      · exact .inr (under n (.inl old))
      · exact .inl (List.mem_singleton.mp last)
    · exact .inr (under n (.inr isInput))

end SelectChain

/-- Adding selects adds a chain, and changes no other node. -/
theorem addSelects_spec (tidy : plan.Tidy) (mode : Mode) (input : NodeId) (conditions : List Expr) :
    ∃ grown top chain, plan.addSelects mode input conditions = (grown, top) ∧
      grown.SelectChain input conditions chain top ∧ (∀ n ∈ chain, plan.contains n = false) ∧
      (∀ n, n ∉ chain → grown.node? n = plan.node? n) ∧ grown.root = plan.root ∧ grown.Tidy := by
  induction conditions with
  | nil =>
    refine ⟨plan, input, [], rfl, .nil, fun n impossible => ?_, fun _ _ => rfl, rfl, tidy⟩
    cases impossible
  | cons condition conditions ih =>
    obtain ⟨lower, below, chain, adds, selects, absent, others, root, tidy'⟩ := ih
    have edges : ({ Node.above (.select condition) [below] with mode := mode } : Node).inputs =
        (List.range [below].length).zip [below] := rfl
    obtain ⟨grown, top, added, vacant, stands, others', root', tidy''⟩ :=
      Stands.addNode tidy' edges
    have new : top ∉ chain := fun member =>
      Bool.noConfusion (vacant.symm.trans (selects.fit top member).present)
    refine ⟨grown, top, chain ++ [top], ?_, ?_, ?_, ?_, root'.trans root, tidy''⟩
    · rw [addSelects, adds]
      exact added
    · refine .cons (selects.congr fun n member => others' n ?_) new stands
      rintro rfl
      exact new member
    · intro n member
      rcases List.mem_append.mp member with old | last
      · exact absent n old
      · cases List.mem_singleton.mp last
        unfold Plan.contains at vacant ⊢
        rwa [others top new] at vacant
    · intro n outside
      simp only [List.mem_append, List.mem_singleton, not_or] at outside
      exact (others' n outside.2).trans (others n outside.1)

section Rules

variable (wellFormed : plan.WellFormed) (holds : plan.HoldsReachable slot)
  (here : plan.nodeAt slot = .ok id)

include wellFormed holds here

/-- A node that is exchanged with its input goes between the input and what is below. -/
theorem swapWithInput_reworked (plain : (plan.operator id).IsPlain)
    (childPlain : (plan.operator child).IsPlain) (inputs : plan.inputs id = [child])
    (childInputs : plan.inputs child = [x]) (done : plan.swapWithInput slot id child = .ok plan') :
    ∃ mid, plan.Reworked slot id child [id, child] [x] mid plan' ∧
      mid.Stands id (plan.operator id) [x] ∧ mid.Stands child (plan.operator child) [id] := by
  have reached : plan.Reaches id := holds.reaches here
  have isInput : child ∈ plan.inputs id := by simp [inputs]
  have isBelow : x ∈ plan.inputs child := by simp [childInputs]
  have reachedChild : plan.Reaches child := reached.input isInput
  have different : child ≠ id := wellFormed.ne_of_input reached isInput
  obtain ⟨below, found, done⟩ := bind_ok_iff.mp done
  obtain rfl : x = below := by
    rw [input_ok_iff, childInputs] at found
    exact Option.some.inj found
  have standsId : plan.Stands id (plan.operator id) [child] :=
    inputs ▸ Stands.of_wellFormed wellFormed reached
  have standsChild : plan.Stands child (plan.operator child) [x] :=
    childInputs ▸ Stands.of_wellFormed wellFormed reachedChild
  have midId : ((plan.setInput id 0 x).setInput child 0 id).Stands id (plan.operator id) [x] :=
    (standsId.setInput (by simp) x).modify (Ne.symm different) _
  have midChild :
      ((plan.setInput id 0 x).setInput child 0 id).Stands child (plan.operator child) [id] :=
    (standsChild.modify different _).setInput (by simp) id
  have reworks : plan.Reworks id child [id, child] [x]
      ((plan.setInput id 0 x).setInput child 0 id) := by
    refine ⟨rfl, wellFormed.tidy.modify.modify, ?_, ?_, ?_, ?_, ?_, ?_, .inl (by simp)⟩
    · intro n outside
      simp only [List.mem_cons, List.not_mem_nil, or_false, not_or] at outside
      rw [setInput, node?_modify, if_neg outside.2, setInput, node?_modify, if_neg outside.1]
    · intro b member
      cases List.mem_singleton.mp member
      exact .two isInput isBelow
    · intro n member _
      rcases List.mem_pair.mp member with rfl | rfl
      · refine ⟨.inl rfl, fun b isBase => ?_, nestedRoots_of_plain plain⟩
        cases List.mem_singleton.mp isBase
        exact .two isInput isBelow
      · refine ⟨.inr (.single isInput), fun b isBase => ?_, nestedRoots_of_plain childPlain⟩
        cases List.mem_singleton.mp isBase
        exact .single isBelow
    · intro n member
      rcases List.mem_pair.mp member with rfl | rfl
      · refine midId.fit ?_ plain
        rw [← wellFormed.arity n reached, inputs]
        rfl
      · refine midChild.fit ?_ childPlain
        rw [← wellFormed.arity n reachedChild, childInputs]
        rfl
    · refine (Layered.nil.snoc (List.not_mem_nil) fun c member => .inl ?_).snoc ?_
        fun c member => .inr ?_
      · rwa [midId.inputs] at member
      · simpa using different
      · rwa [midChild.inputs] at member
    · rintro n (isLayer | isBase)
      · rcases List.mem_pair.mp isLayer with rfl | rfl
        · exact .inr ⟨child, by simp, by simp [midChild.inputs]⟩
        · exact .inl rfl
      · cases List.mem_singleton.mp isBase
        exact .inr ⟨id, by simp, by simp [midId.inputs]⟩
  exact ⟨_, ⟨reworks, wellFormed, holds, here, reworks.rewired wellFormed holds here done⟩, midId,
    midChild⟩

/-- A select that is put on a side of a join stands on what was the side. -/
theorem selectSide_reworked {op : Operator} (plain : (plan.operator join).IsPlain) (unary : op.arity = 1)
    (opPlain : op.IsPlain) (inputs : join ∈ plan.inputs id) (sides : plan.inputs join = [x, y])
    {side : Nat} {input : NodeId} (found : [x, y][side]? = some input)
    (done : ((plan.add op [input]).1.setInput join side (plan.add op [input]).2).setSlot slot join =
      .ok plan') :
    ∃ mid n, plan.Reworked slot id join [n, join] [x, y] mid plan' ∧ mid.Stands n op [input] ∧
      mid.Stands join (plan.operator join) ([x, y].set side n) := by
  have reached : plan.Reaches id := holds.reaches here
  have reachedJoin : plan.Reaches join := reached.input inputs
  have small : side < [x, y].length := (List.getElem?_eq_some_iff.mp found).1
  have isBase : input ∈ [x, y] := List.mem_of_getElem? found
  have edges : (Node.above op [input]).inputs = (List.range [input].length).zip [input] := rfl
  obtain ⟨grown, new, added, absent, standsNew, others, root, tidy⟩ :=
    Stands.addNode wellFormed.tidy edges
  have grows : plan.add op [input] = (grown, new) := added
  rw [grows] at done
  have different : join ≠ new := by
    rintro rfl
    exact Bool.noConfusion (absent.symm.trans (wellFormed.present join reachedJoin))
  have standsJoin : plan.Stands join (plan.operator join) [x, y] :=
    sides ▸ Stands.of_wellFormed wellFormed reachedJoin
  have midNew : (grown.setInput join side new).Stands new op [input] :=
    standsNew.modify (Ne.symm different) _
  have midJoin : (grown.setInput join side new).Stands join (plan.operator join)
      ([x, y].set side new) :=
    (standsJoin.congr (others join different)).setInput small new
  have fed : ∀ b ∈ [x, y], b ∈ plan.inputs join := fun b member => sides ▸ member
  have reworks : plan.Reworks id join [new, join] [x, y] (grown.setInput join side new) := by
    refine ⟨root, tidy.modify, ?_, ?_, ?_, ?_, ?_, ?_, .inl (by simp)⟩
    · intro n outside
      simp only [List.mem_cons, List.not_mem_nil, or_false, not_or] at outside
      rw [setInput, node?_modify, if_neg outside.2]
      exact others n outside.1
    · exact fun b member => .two inputs (fed b member)
    · intro n member present
      rcases List.mem_pair.mp member with rfl | rfl
      · exact Bool.noConfusion (absent.symm.trans present)
      · exact ⟨.inr (.single inputs), fun b member => .single (fed b member),
          nestedRoots_of_plain plain⟩
    · intro n member
      rcases List.mem_pair.mp member with rfl | rfl
      · exact midNew.fit unary.symm opPlain
      · refine midJoin.fit ?_ plain
        rw [List.length_set, ← wellFormed.arity n reachedJoin, sides]
    · refine (Layered.nil.snoc List.not_mem_nil fun c member => .inl ?_).snoc ?_ fun c member => ?_
      · rw [midNew.inputs] at member
        cases List.mem_singleton.mp member
        exact isBase
      · simpa using different
      · rw [midJoin.inputs] at member
        rcases List.mem_or_eq_of_mem_set member with old | rfl
        · exact .inl old
        · exact .inr (by simp)
    · rintro n (isLayer | isBase)
      · rcases List.mem_pair.mp isLayer with rfl | rfl
        · refine .inr ⟨join, by simp, ?_⟩
          rw [midJoin.inputs]
          exact List.mem_set small n
        · exact .inl rfl
      · by_cases same : n = input
        · exact .inr ⟨new, by simp, by simp [midNew.inputs, same]⟩
        · refine .inr ⟨join, by simp, ?_⟩
          rw [midJoin.inputs]
          obtain ⟨k, atK⟩ := List.mem_iff_getElem?.mp isBase
          have other : side ≠ k := by
            rintro rfl
            exact same (Option.some.inj (atK.symm.trans found))
          exact List.mem_of_getElem? ((List.getElem?_set_ne other).trans atK)
  exact ⟨_, new, ⟨reworks, wellFormed, holds, here, reworks.rewired wellFormed holds here done⟩,
    midNew, midJoin⟩

/-- A join takes the place of the node over it, with another operator. -/
theorem raise_reworked {op : Operator} (plain : (plan.operator join).IsPlain)
    (opPlain : op.IsPlain) (arity : op.arity = (plan.operator join).arity)
    (inputs : join ∈ plan.inputs id)
    (done : (plan.setOperator join op).setSlot slot join = .ok plan') :
    ∃ mid, plan.Reworked slot id join [join] (plan.inputs join) mid plan' ∧
      mid.Stands join op (plan.inputs join) := by
  have reached : plan.Reaches id := holds.reaches here
  have reachedJoin : plan.Reaches join := reached.input inputs
  have midJoin : (plan.setOperator join op).Stands join op (plan.inputs join) :=
    (Stands.of_wellFormed wellFormed reachedJoin).setOperator op
  have reworks : plan.Reworks id join [join] (plan.inputs join) (plan.setOperator join op) := by
    refine midJoin.reworks rfl wellFormed.tidy.modify (fun n other => ?_)
      ((wellFormed.arity join reachedJoin).trans arity.symm) opPlain
      (fun b member => .two inputs member) fun _ => ?_
    · rw [setOperator, node?_modify, if_neg other]
    · exact ⟨.inr (.single inputs), fun b isInput => .single isInput, nestedRoots_of_plain plain⟩
  exact ⟨_, ⟨reworks, wellFormed, holds, here, reworks.rewired wellFormed holds here done⟩, midJoin⟩

/-- A node takes over the input of its input. -/
theorem absorb_reworked {op : Operator} (plain : (plan.operator id).IsPlain) (opPlain : op.IsPlain)
    (arity : op.arity = 1) (inputs : plan.inputs id = [child]) (isBelow : x ∈ plan.inputs child) :
    plan.Reworked slot id id [id] [x] ((plan.setOperator id op).setInput id 0 x)
        ((plan.setOperator id op).setInput id 0 x) ∧
      ((plan.setOperator id op).setInput id 0 x).Stands id op [x] := by
  have reached : plan.Reaches id := holds.reaches here
  have isInput : child ∈ plan.inputs id := by simp [inputs]
  have standsId : plan.Stands id (plan.operator id) [child] :=
    inputs ▸ Stands.of_wellFormed wellFormed reached
  have midId : ((plan.setOperator id op).setInput id 0 x).Stands id op [x] :=
    (standsId.setOperator op).setInput (by simp) x
  have fed : ∀ b ∈ [x], plan.Feeds id b := by
    intro b member
    cases List.mem_singleton.mp member
    exact .two isInput isBelow
  have reworks : plan.Reworks id id [id] [x] ((plan.setOperator id op).setInput id 0 x) := by
    refine midId.reworks rfl wellFormed.tidy.modify.modify (fun n other => ?_) arity.symm opPlain fed
      fun _ => ⟨.inl rfl, fed, nestedRoots_of_plain plain⟩
    rw [setInput, node?_modify, if_neg other, setOperator, node?_modify, if_neg other]
  exact ⟨⟨reworks, wellFormed, holds, here,
    .same (reworks.nodeAt_mid wellFormed holds here)⟩, midId⟩

/-- A select with several conjuncts becomes a chain of selects, with the node on top. -/
theorem splitSelect_reworked {top next : Expr} {rest : List Expr}
    (operator : plan.operator id = .select condition)
    (conjuncts : condition.conjuncts = top :: next :: rest) (inputs : plan.inputs id = [x])
    (done : plan.splitSelect slot = .ok (some plan')) :
    ∃ chain, plan.Reworked slot id id chain [x] plan' plan' ∧
      plan'.SelectChain x condition.conjuncts chain id := by
  have reached : plan.Reaches id := holds.reaches here
  obtain ⟨grown, below, chain, adds, selects, absent, others, root, tidy⟩ :=
    addSelects_spec wellFormed.tidy (plan.mode id) x (next :: rest)
  have result : plan' = (grown.setOperator id (.select top)).setInput id 0 below := by
    simp only [splitSelect, here, operator, conjuncts, input_of_single inputs, adds, bind, Except.bind, pure,
      Except.pure] at done
    exact (Option.some.inj (Except.ok.inj done)).symm
  subst result
  have notNew : id ∉ chain := fun member =>
    Bool.noConfusion ((absent id member).symm.trans (wellFormed.present id reached))
  have standsId : grown.Stands id (plan.operator id) [x] :=
    (inputs ▸ Stands.of_wellFormed wellFormed reached).congr (others id notNew)
  have midId : ((grown.setOperator id (.select top)).setInput id 0 below).Stands id (.select top)
      [below] := (standsId.setOperator _).setInput (by simp) below
  have chained : ((grown.setOperator id (.select top)).setInput id 0 below).SelectChain x
      condition.conjuncts (chain ++ [id]) id := by
    rw [conjuncts]
    refine .cons (selects.congr fun n member => ?_) notNew midId
    have other : n ≠ id := by
      rintro rfl
      exact notNew member
    rw [setInput, node?_modify, if_neg other, setOperator, node?_modify, if_neg other]
  have fed : ∀ b ∈ [x], plan.Feeds id b := fun b member => .single (inputs ▸ member)
  have reworks : plan.Reworks id id (chain ++ [id]) [x]
      ((grown.setOperator id (.select top)).setInput id 0 below) := by
    refine ⟨root, tidy.modify.modify, ?_, fed, ?_, chained.fit, chained.layered, chained.covers,
      .inl (by simp)⟩
    · intro n outside
      simp only [List.mem_append, List.mem_singleton, not_or] at outside
      rw [setInput, node?_modify, if_neg outside.2, setOperator, node?_modify, if_neg outside.2]
      exact others n outside.1
    · intro n member present
      rcases List.mem_append.mp member with inChain | isId
      · exact Bool.noConfusion ((absent n inChain).symm.trans present)
      · cases List.mem_singleton.mp isId
        refine ⟨.inl rfl, fed, ?_⟩
        unfold nestedRoots
        rw [operator]
        rfl
  exact ⟨_, ⟨reworks, wellFormed, holds, here,
    .same (reworks.nodeAt_mid wellFormed holds here)⟩, chained⟩

end Rules

end QueryOptimizer.Plan
