import Mathlib
import QueryOptimizer.Proofs.Batch.Merging
import QueryOptimizer.Proofs.Batch.Sinking
import QueryOptimizer.Proofs.Plan.Redrawn
import QueryOptimizer.Proofs.Transform.Inlining

/-! # What transformations do to plans

Every transformation redraws a well-formed plan, or reworks it at its slot. So the plan stays well
formed, and what is above the slot still leads to it.
-/

namespace QueryOptimizer

namespace Plan

variable {plan plan' plan'' mid : Plan} {slot : Slot} {id child n x y : NodeId}

/-- A plan that was redrawn, or reworked at a slot and then redrawn. -/
inductive Changed (slot : Slot) (plan plan' : Plan) : Prop where
  | redrawn (redrawn : plan.Redrawn plan')
  | reworked {old new : NodeId} {layer base : List NodeId} {mid next : Plan}
      (reworked : plan.Reworked slot old new layer base mid next) (redrawn : next.Redrawn plan')

namespace Changed

theorem of_reworked {old new : NodeId} {layer base : List NodeId}
    (reworked : plan.Reworked slot old new layer base mid plan') : Changed slot plan plan' :=
  .reworked reworked (.refl plan')

theorem wellFormed (changed : Changed slot plan plan') (wellFormed : plan.WellFormed) :
    plan'.WellFormed := by
  cases changed with
  | redrawn redrawn => exact redrawn.wellFormed wellFormed
  | reworked reworked redrawn => exact redrawn.wellFormed reworked.wellFormed

theorem retains (changed : Changed slot plan plan') : Retains slot.holder? plan plan' := by
  cases changed with
  | redrawn redrawn => exact redrawn.retains _
  | reworked reworked redrawn => exact reworked.retains.trans (redrawn.retains _)

end Changed

theorem setInput_setOperator_self (plan : Plan) (id input : NodeId) (index : Nat) :
    (plan.setOperator id (plan.operator id)).setInput id index input =
      plan.setInput id index input := by
  unfold setInput setOperator modify
  simp only [Plan.mk.injEq, and_true]
  refine List.ext_getElem? fun n => ?_
  simp only [List.getElem?_modify]
  by_cases same : id = n
  · subst same
    match found : plan.nodes[id]? with
    | none => rfl
    | some none => simp
    | some (some node) =>
      have operator : plan.operator id = node.operator := by
        simp [operator, Plan.node, node?, found]
      simp [operator, Node.setOperator, Node.setInput]
  · simp [same]

section Rules

variable (wellFormed : plan.WellFormed) (holds : plan.HoldsReachable slot)

include wellFormed holds

/-- A node that is dropped leaves its slot to one that it gets its tuples from. -/
theorem drop_reworked (here : plan.nodeAt slot = .ok id) (below : plan.Feeds id x)
    (done : plan.setSlot slot x = .ok plan') : plan.Reworked slot id x [] [x] plan plan' := by
  have none : ∀ {P : NodeId → Prop}, ∀ n ∈ ([] : List NodeId), P n := fun n impossible => by
    cases impossible
  have fed : ∀ b ∈ [x], plan.Feeds id b := by
    intro b member
    cases List.mem_singleton.mp member
    exact below
  have reworks : plan.Reworks id x [] [x] plan :=
    ⟨rfl, wellFormed.tidy, fun _ _ => rfl, fed, none, none, none,
      fun n member => .inl (by simpa using member), .inr (by simp)⟩
  exact ⟨reworks, wellFormed, holds, here, reworks.rewired wellFormed holds here done⟩

/-- A new node takes the place of two, over the input of the lower one. -/
theorem fuse_reworked {op : Operator} (mode : Mode) (unary : op.arity = 1) (plain : op.IsPlain)
    (here : plan.nodeAt slot = .ok id) (isInput : child ∈ plan.inputs id)
    (isBelow : x ∈ plan.inputs child)
    (done : (plan.addOver op x mode).1.setSlot slot (plan.addOver op x mode).2 = .ok plan') :
    ∃ mid n, plan.Reworked slot id n [n] [x] mid plan' ∧ mid.Stands n op [x] := by
  have edges : ({ Node.above op [x] with mode := mode } : Node).inputs =
      (List.range [x].length).zip [x] := rfl
  obtain ⟨grown, new, added, absent, stands, others, root, tidy⟩ :=
    Stands.addNode wellFormed.tidy edges
  have grows : plan.addOver op x mode = (grown, new) := added
  rw [grows] at done
  have reworks : plan.Reworks id new [new] [x] grown := by
    refine stands.reworks root tidy others unary.symm plain (fun b member => ?_) fun present =>
      Bool.noConfusion (absent.symm.trans present)
    cases List.mem_singleton.mp member
    exact .two isInput isBelow
  exact ⟨_, new,
    ⟨reworks, wellFormed, holds, here, reworks.rewired wellFormed holds here done⟩, stands⟩

theorem changed_splitSelect (done : plan.splitSelect slot = .ok (some plan')) :
    Changed slot plan plan' := by
  obtain ⟨id, condition, top, next, rest, here, operator, conjuncts⟩ := splitSelect_some done
  have reached := holds.reaches here
  obtain ⟨x, inputs⟩ := List.length_eq_one_iff.mp
    ((wellFormed.arity id reached).trans (by rw [operator]; rfl))
  obtain ⟨chain, reworked, _⟩ :=
    splitSelect_reworked wellFormed holds here operator conjuncts inputs done
  exact .of_reworked reworked

theorem changed_swapWithInput (here : plan.nodeAt slot = .ok id) (plain : (plan.operator id).IsPlain)
    (unary : (plan.operator id).arity = 1) (found : (plan.inputs id)[0]? = some child)
    (childPlain : (plan.operator child).IsPlain) (childUnary : (plan.operator child).arity = 1)
    (done : plan.swapWithInput slot id child = .ok plan') : Changed slot plan plan' := by
  have reached := holds.reaches here
  obtain ⟨inputs, reachedChild⟩ := wellFormed.inputs_single reached unary found
  obtain ⟨x, childInputs⟩ := List.length_eq_one_iff.mp
    ((wellFormed.arity child reachedChild).trans childUnary)
  obtain ⟨mid, reworked, _⟩ :=
    swapWithInput_reworked wellFormed holds here plain childPlain inputs childInputs done
  exact .of_reworked reworked

theorem changed_selectJoinInput {kind : JoinKind} {condition joined : Expr} {sides : List Nat}
    (here : plan.nodeAt slot = .ok id) (isInput : child ∈ plan.inputs id)
    (operator : plan.operator child = .join kind joined)
    (done : plan.selectJoinInput slot child condition sides = .ok (some plan')) :
    Changed slot plan plan' := by
  obtain ⟨side, _, input, _, found, _, _, placed⟩ := selectJoinInput_some done
  obtain ⟨x, y, pair⟩ := wellFormed.inputs_pair ((holds.reaches here).input isInput)
    (by rw [operator]; rfl)
  rw [pair] at found
  obtain ⟨mid, n, reworked, _⟩ := selectSide_reworked wellFormed holds here
    (by rw [operator]; trivial) rfl (by trivial) isInput pair found placed
  exact .of_reworked reworked

theorem changed_pushSelect (done : plan.pushSelect slot = .ok (some plan')) :
    Changed slot plan plan' := by
  obtain ⟨id, condition, child, here, movable, cases⟩ := pushSelect_some done
  obtain ⟨operator, _, found, _⟩ := movableSelect_some movable
  have isInput := List.mem_of_getElem? found
  rcases cases with ⟨passed, done⟩ | ⟨⟨joined, isJoin⟩, done⟩ | ⟨⟨joined, isJoin⟩, done⟩
  · have childPlain : (plan.operator child).IsPlain ∧ (plan.operator child).arity = 1 := by
      rcases passed with ⟨_, passed⟩ | ⟨_, passed⟩ | passed | ⟨_, _, passed, _⟩ <;>
        rw [passed] <;> exact ⟨trivial, rfl⟩
    exact changed_swapWithInput wellFormed holds here (by rw [operator]; trivial)
      (by rw [operator]; rfl) found childPlain.1 childPlain.2 done
  · exact changed_selectJoinInput wellFormed holds here isInput isJoin done
  · exact changed_selectJoinInput wellFormed holds here isInput isJoin done

theorem changed_mergeSelectIntoJoin (done : plan.mergeSelectIntoJoin slot = .ok (some plan')) :
    Changed slot plan plan' := by
  obtain ⟨id, condition, join, joined, here, movable, operator, placed⟩ :=
    mergeSelectIntoJoin_some done
  obtain ⟨_, _, found, _⟩ := movableSelect_some movable
  obtain ⟨mid, reworked, _⟩ := raise_reworked wellFormed holds here (by rw [operator]; trivial)
    (by trivial) (by rw [operator]; rfl) (List.mem_of_getElem? found) placed
  exact .of_reworked reworked

theorem changed_absorb (op : Operator) (here : plan.nodeAt slot = .ok id)
    (plain : (plan.operator id).IsPlain) (unary : (plan.operator id).arity = 1) (opPlain : op.IsPlain)
    (opUnary : op.arity = 1) (found : (plan.inputs id)[0]? = some child)
    (below : (plan.inputs child)[0]? = some x) :
    Changed slot plan ((plan.setOperator id op).setInput id 0 x) :=
  .of_reworked (absorb_reworked wellFormed holds here plain opPlain opUnary
    (wellFormed.inputs_single (holds.reaches here) unary found).1 (List.mem_of_getElem? below)).1

theorem changed_mergeSelects (done : plan.mergeSelects slot = .ok (some plan')) :
    Changed slot plan plan' := by
  obtain ⟨outer, inner, input, condition, innerCondition, here, found, below, operator, _, rfl⟩ :=
    mergeSelects_some done
  exact changed_absorb wellFormed holds _ here (by rw [operator]; trivial) (by rw [operator]; rfl)
    (by trivial) rfl found below

theorem changed_mergeAssigns (done : plan.mergeAssigns slot = .ok (some plan')) :
    Changed slot plan plan' := by
  obtain ⟨outer, inner, input, vars, exprs, innerVars, innerExprs, here, found, below, operator, _, _,
    rfl⟩ := mergeAssigns_some done
  exact changed_absorb wellFormed holds _ here (by rw [operator]; trivial) (by rw [operator]; rfl)
    (by trivial) rfl found below

theorem changed_dropRedundantProject (done : plan.dropRedundantProject slot = .ok (some plan')) :
    Changed slot plan plan' := by
  obtain ⟨id, input, vars, here, found, operator, ⟨_, placed⟩ | ⟨inner, below, _, isBelow, rfl⟩⟩ :=
    dropRedundantProject_some done
  · exact .of_reworked (drop_reworked wellFormed holds here (.single (List.mem_of_getElem? found)) placed)
  · have changed := changed_absorb wellFormed holds (plan.operator id) here
      (by rw [operator]; trivial) (by rw [operator]; rfl) (by rw [operator]; trivial)
      (by rw [operator]; rfl) found isBelow
    rwa [setInput_setOperator_self] at changed

theorem changed_mergeLimits (done : plan.mergeLimits slot = .ok (some plan')) :
    Changed slot plan plan' := by
  obtain ⟨id, inner, x, outer, below, here, _, isInput, _, isBelow, placed⟩ := mergeLimits_some done
  obtain ⟨mid, n, reworked, _⟩ := fuse_reworked wellFormed holds (plan.mode id) rfl (by trivial) here
    (List.mem_of_getElem? isInput) (List.mem_of_getElem? isBelow) placed
  exact .of_reworked reworked

theorem changed_pushLimit (here : plan.nodeAt slot = .ok id)
    (isMatch : Rule.pushLimit.pattern.isMatch plan id = true)
    (done : plan.pushLimit slot = .ok (some plan')) : Changed slot plan plan' := by
  obtain ⟨count, offset, child, operator, inputs, passed, _, swapped⟩ :=
    pushLimit_some here isMatch done
  have childPlain : (plan.operator child).IsPlain ∧ (plan.operator child).arity = 1 := by
    rcases passed with ⟨_, passed⟩ | ⟨_, _, passed⟩ <;> rw [passed] <;> exact ⟨trivial, rfl⟩
  exact changed_swapWithInput wellFormed holds here (by rw [operator]; trivial)
    (by rw [operator]; rfl) (by rw [inputs]; rfl) childPlain.1 childPlain.2 swapped

theorem changed_dropUnusedAssigns {needed : VarSet}
    (done : plan.dropUnusedAssigns needed slot = .ok (some plan')) : Changed slot plan plan' := by
  obtain ⟨id, here, ⟨impossible, _⟩ | ⟨vars, exprs, _, same, operator, _, dropped⟩⟩ :=
    dropUnusedAssigns_cases done
  · cases impossible
  cases same
  rcases dropped with ⟨_, input, isInput, placed⟩ | rfl
  · exact .of_reworked
      (drop_reworked wellFormed holds here (.single (List.mem_of_getElem? isInput)) placed)
  · refine .redrawn (.setOperator plan id ?_)
    rw [operator]
    exact ⟨rfl, rfl, fun owner => by simp, .refl _⟩

end Rules

end Plan

end QueryOptimizer
