import Mathlib
import QueryOptimizer.Proofs.Batch.Potential
import QueryOptimizer.Proofs.Plan.Growth
import QueryOptimizer.Proofs.Transform.Selects

/-! # Nodes that sink

Selects and limits move to the leaves. An edge that leads to a node of the kind that moves weighs as
much as the node is high, and an edge that leads elsewhere weighs nothing. Then a plan gets lighter
whenever a node changes places with its input, whenever a new select on a side of a join takes the
place of one over the join, and whenever one limit takes the place of two.
-/

namespace QueryOptimizer.Plan

variable {plan plan' : Plan} {slot : Slot} {id c x n t join : NodeId} {kind : OperatorKind} {k : Nat}
  {weight weight' height rank : NodeId → Nat} {condition : Expr}

/-- The weights of the nodes of a kind. Other nodes weigh nothing. -/
def weigh (plan : Plan) (kind : OperatorKind) (weight : NodeId → Nat) (n : NodeId) : Nat :=
  if (plan.operator n).kind = kind then weight n else 0

theorem weigh_of (isKind : (plan.operator n).kind = kind) : plan.weigh kind weight n = weight n :=
  if_pos isKind

theorem weigh_other (other : (plan.operator n).kind ≠ kind) : plan.weigh kind weight n = 0 :=
  if_neg other

theorem weigh_congr (same : ∀ n, (plan'.operator n).kind = (plan.operator n).kind) :
    plan'.weigh kind weight = plan.weigh kind weight := by
  funext n
  unfold weigh
  rw [same]

/-- Only the nodes that are there matter. -/
theorem Regular.load_weigh (regular : plan.Regular)
    (same : ∀ n, plan.contains n = true →
      (plan'.operator n).kind = (plan.operator n).kind ∧ weight' n = weight n) :
    plan.load .none (plan'.weigh kind weight') = plan.load .none (plan.weigh kind weight) := by
  refine regular.load_congr fun n present => ?_
  obtain ⟨sameKind, sameWeight⟩ := same n present
  unfold weigh
  rw [sameKind, sameWeight]

/-! ## Nodes that change places -/

/-- A node that changes places with its input. -/
structure Swaps (plan : Plan) (slot : Slot) (id c x : NodeId) (plan' : Plan) : Prop where
  regular : plan.Regular
  here : plan.nodeAt slot = .ok id
  single : plan.inputs id = [c]
  under : (plan.inputs c)[0]? = some x
  notBelow : id ∉ plan.inputs c
  placed : ((plan.setInput id 0 x).setInput c 0 id).setSlot slot c = .ok plan'

theorem Regular.swaps (regular : plan.Regular) (here : plan.nodeAt slot = .ok id)
    (single : plan.inputs id = [c]) (notBelow : id ∉ plan.inputs c)
    (done : plan.swapWithInput slot id c = .ok plan') : ∃ x, plan.Swaps slot id c x plan' := by
  obtain ⟨x, under, placed⟩ := bind_ok_iff.mp done
  exact ⟨x, regular, here, single, input_ok_iff.mp under, notBelow, placed⟩

namespace Swaps

variable (swaps : plan.Swaps slot id c x plan')

include swaps

theorem first : (plan.inputs id)[0]? = some c := by
  rw [swaps.single]
  rfl

theorem under_mem : x ∈ plan.inputs c := List.mem_of_getElem? swaps.under

theorem ne : id ≠ c := by
  rintro rfl
  exact swaps.notBelow (List.mem_of_getElem? swaps.first)

theorem not_own_input : id ∉ plan.inputs id := by
  rw [swaps.single, List.mem_singleton]
  exact swaps.ne

theorem regular_first : (plan.setInput id 0 x).Regular :=
  swaps.regular.setInput swaps.first (swaps.regular.inputs c x swaps.under_mem)

theorem inputs_first : (plan.setInput id 0 x).inputs c = plan.inputs c :=
  inputs_setInput_of_ne swaps.ne.symm x

theorem under_first : ((plan.setInput id 0 x).inputs c)[0]? = some x := by
  rw [swaps.inputs_first]
  exact swaps.under

theorem regular_mid : ((plan.setInput id 0 x).setInput c 0 id).Regular :=
  swaps.regular_first.setInput swaps.under_first
    (contains_modify.trans (contains_of_input swaps.first))

theorem here_mid : ((plan.setInput id 0 x).setInput c 0 id).nodeAt slot = .ok id := by
  refine nodeAt_setInput (nodeAt_setInput swaps.here swaps.not_own_input) ?_
  rw [swaps.inputs_first]
  exact swaps.notBelow

theorem regular' : plan'.Regular :=
  swaps.regular_mid.setSlot swaps.here_mid swaps.placed
    (contains_modify.trans (contains_modify.trans (contains_of_input swaps.under)))

theorem kinds (n : NodeId) : (plan'.operator n).kind = (plan.operator n).kind := by
  rw [kind_setSlot swaps.placed, operator_setInput, operator_setInput]

theorem inputs_mid : ((plan.setInput id 0 x).setInput c 0 id).inputs id = [x] := by
  rw [inputs_setInput_of_ne swaps.ne, inputs_setInput_self swaps.regular.numbered swaps.first,
    swaps.single]
  rfl

/-- The edges after the two nodes changed places. -/
theorem mem_inputs (member : t ∈ plan'.inputs n) :
    n = id ∧ t = x ∨ n = c ∧ t = id ∨ t = c ∧ id ∈ plan.inputs n ∨ n ≠ id ∧ t ∈ plan.inputs n := by
  rcases mem_inputs_setSlot swaps.regular_mid.numbered swaps.here_mid swaps.placed member with
    member | ⟨isInput, index, rfl⟩
  · by_cases isId : n = id
    · rw [isId, swaps.inputs_mid] at member
      exact .inl ⟨isId, List.mem_singleton.mp member⟩
    · rcases mem_inputs_setInput swaps.regular_first.numbered swaps.under_first member with
        member | isNew
      · rw [inputs_setInput_of_ne isId] at member
        exact .inr (.inr (.inr ⟨isId, member⟩))
      · exact .inr (.inl isNew)
  · exact .inr (.inr (.inl ⟨isInput, List.mem_of_getElem? (input_ok_iff.mp swaps.here)⟩))

theorem below : id ∈ plan'.inputs c := by
  have mid : id ∈ ((plan.setInput id 0 x).setInput c 0 id).inputs c := by
    rw [inputs_setInput_self swaps.regular_first.numbered swaps.under_first]
    exact List.mem_of_getElem?
      (List.getElem?_set_self (List.getElem?_eq_some_iff.mp swaps.under_first).1)
  have here := swaps.here
  rcases setSlot_cases swaps.placed with ⟨_, rfl⟩ | ⟨p, index, rfl, rfl⟩ | ⟨_, _, _, _, rfl⟩
  · exact mid
  · have other : c ≠ p := by
      rintro rfl
      exact swaps.notBelow (List.mem_of_getElem? (input_ok_iff.mp here))
    rwa [inputs_setInput_of_ne other]
  · rwa [inputs_setOperator]

/-- The same nodes have edges that lead to them. -/
theorem load (w : NodeId → Nat) : plan'.load .none w = plan.load .none w := by
  have first := load_setInput (b := .none) (w := w) swaps.regular.numbered swaps.first x
  have second := load_setInput (b := .none) (w := w) swaps.regular_first.numbered swaps.under_first id
  have third := load_setSlot (b := .none) (w := w) swaps.regular_mid.numbered swaps.here_mid swaps.placed
  omega

/-- A plan gets lighter if the node that sinks does, and no other node gets heavier. -/
theorem lighter (isKind : (plan.operator id).kind = kind) (less : weight' id < weight id)
    (smaller : ∀ t, (plan.operator t).kind = kind → weight' t ≤ weight t) :
    plan'.load .none (plan'.weigh kind weight') < plan.load .none (plan.weigh kind weight) := by
  rw [weigh_congr swaps.kinds, ← swaps.load]
  refine load_lt (fun t => ?_) swaps.below ?_
  · by_cases isKind : (plan.operator t).kind = kind
    · rw [weigh_of isKind, weigh_of isKind]
      exact smaller t isKind
    · rw [weigh_other isKind, weigh_other isKind]
  · rwa [weigh_of isKind, weigh_of isKind]

end Swaps

/-! ## Selects -/

/-- A new select on a side of a join, in place of one over the join, which stays for other nodes. -/
structure Hands (plan : Plan) (slot : Slot) (id join input : NodeId) (side : Nat) (condition : Expr)
    (grown : Plan) (m : NodeId) (plan' : Plan) : Prop where
  regular : plan.Regular
  here : plan.nodeAt slot = .ok id
  isSide : (plan.inputs join)[side]? = some input
  notBelow : id ∉ plan.inputs join
  grows : plan.Grows (.select condition) input grown m
  placed : (grown.setInput join side m).setSlot slot join = .ok plan'

namespace Hands

variable {input m : NodeId} {side : Nat} {grown : Plan}
  (hands : plan.Hands slot id join input side condition grown m plan')

include hands

theorem joinOld : join ≠ m := hands.grows.ne_of_contains (contains_of_input hands.isSide)

theorem inputs_grown : grown.inputs join = plan.inputs join :=
  inputs_congr (hands.grows.others join hands.joinOld)

theorem side_grown : (grown.inputs join)[side]? = some input := by
  rw [hands.inputs_grown]
  exact hands.isSide

theorem regular_mid : (grown.setInput join side m).Regular :=
  hands.grows.regular.setInput hands.side_grown hands.grows.contains

theorem here_mid : (grown.setInput join side m).nodeAt slot = .ok id := by
  refine nodeAt_setInput (hands.grows.nodeAt hands.here) ?_
  rw [hands.inputs_grown]
  exact hands.notBelow

theorem regular' : plan'.Regular :=
  hands.regular_mid.setSlot hands.here_mid hands.placed
    (contains_modify.trans (contains_of_input hands.side_grown))

theorem kinds (other : n ≠ m) : (plan'.operator n).kind = (plan.operator n).kind := by
  rw [kind_setSlot hands.placed, operator_setInput, hands.grows.operator_of_ne other]

theorem isSelect : (plan'.operator m).kind = .select := by
  rw [kind_setSlot hands.placed, operator_setInput, hands.grows.operator]
  rfl

/-- The edges of the new plan. -/
theorem mem_inputs (member : t ∈ plan'.inputs n) : n = m ∧ t = input ∨ n = join ∧ t = m ∨
    t = join ∧ id ∈ plan.inputs n ∨ n ≠ m ∧ t ∈ plan.inputs n := by
  rcases mem_inputs_setSlot hands.regular_mid.numbered hands.here_mid hands.placed member with
    member | ⟨isJoin, index, rfl⟩
  · rcases mem_inputs_setInput hands.grows.regular.numbered hands.side_grown member with
      member | isNew
    · rcases hands.grows.mem_inputs member with isNew | isOld
      · exact .inl isNew
      · exact .inr (.inr (.inr isOld))
    · exact .inr (.inl isNew)
  · exact .inr (.inr (.inl ⟨isJoin, List.mem_of_getElem? (input_ok_iff.mp hands.here)⟩))

/-- The slot leads to the join, and an edge leads to the new select. -/
theorem load (w : NodeId → Nat) : plan'.load .none w + w id = plan.load .none w + w m + w join := by
  have grown := hands.grows.load .none w
  rw [Burden.of_none] at grown
  have sided := load_setInput (b := .none) (w := w) hands.grows.regular.numbered hands.side_grown m
  have moved := load_setSlot (b := .none) (w := w) hands.regular_mid.numbered hands.here_mid hands.placed
  omega

end Hands

/-- Whether no node is higher than the node it is an input of, and selects only are as high as their
    input. -/
def Leveled (plan : Plan) (height : NodeId → Nat) : Prop :=
  ∀ n, ∀ c ∈ plan.inputs n,
    height c ≤ height n ∧ ((plan.operator n).kind ≠ .select → height c < height n)

/-- The weight of the plan while selects sink is the number, or less. -/
def SelectWeight (plan : Plan) (k : Nat) : Prop :=
  plan.Regular ∧ ∃ height, plan.Leveled height ∧
    plan.load .none (plan.weigh .select fun n => height n + 1) ≤ k

namespace SelectWeight

variable (bound : plan.SelectWeight k)

include bound

theorem onlySchemas (only : plan.OnlySchemas plan') : plan'.SelectWeight k := by
  obtain ⟨regular, height, leveled, small⟩ := bound
  have kinds : ∀ n, (plan'.operator n).kind = (plan.operator n).kind := fun n =>
    congrArg Operator.kind (only.operator n)
  refine ⟨regular.onlySchemas only, height, fun n c member => ?_, ?_⟩
  · rw [only.inputs] at member
    rw [kinds]
    exact leveled n c member
  · rwa [only.load, weigh_congr kinds]

/-- A select that sinks is as high as what it comes to stand on. -/
theorem swap (here : plan.nodeAt slot = .ok id) (isSelect : (plan.operator id).kind = .select)
    (single : plan.inputs id = [c]) (other : (plan.operator c).kind ≠ .select)
    (done : plan.swapWithInput slot id c = .ok plan') : ∃ k' < k, plan'.SelectWeight k' := by
  obtain ⟨regular, height, leveled, small⟩ := bound
  have above : height c ≤ height id := (leveled id c (by simp [single])).1
  obtain ⟨x, swaps⟩ := regular.swaps here single (fun member =>
    Nat.not_lt_of_le above ((leveled c id member).2 other)) done
  have under : height x < height c := (leveled c x swaps.under_mem).2 other
  let height' := Function.update height id (height x)
  have sunk : height' id = height x := Function.update_self ..
  have same : ∀ n, n ≠ id → height' n = height n := fun n other => Function.update_of_ne other _ _
  have falls : ∀ n, height' n ≤ height n := by
    intro n
    by_cases isId : n = id
    · rw [isId, sunk]
      omega
    · rw [same n isId]
  have lighter : plan'.load .none (plan'.weigh .select fun n => height' n + 1) <
      plan.load .none (plan.weigh .select fun n => height n + 1) :=
    swaps.lighter isSelect (by omega) fun t _ => Nat.succ_le_succ (falls t)
  refine ⟨_, lighter.trans_le small, swaps.regular', height', fun n t member => ?_, Nat.le_refl _⟩
  rw [swaps.kinds]
  rcases swaps.mem_inputs member with ⟨rfl, rfl⟩ | ⟨rfl, rfl⟩ | ⟨rfl, holds⟩ | ⟨notId, old⟩
  · rw [sunk]
    exact ⟨falls t, fun impossible => absurd isSelect impossible⟩
  · rw [sunk, same n swaps.ne.symm]
    exact ⟨Nat.le_of_lt under, fun _ => under⟩
  · have notId : n ≠ id := by
      rintro rfl
      exact swaps.not_own_input holds
    obtain ⟨le, lt⟩ := leveled n id holds
    rw [same t swaps.ne.symm, same n notId]
    exact ⟨above.trans le, fun other => above.trans_lt (lt other)⟩
  · obtain ⟨le, lt⟩ := leveled n t old
    rw [same n notId]
    exact ⟨(falls t).trans le, fun other => (falls t).trans_lt (lt other)⟩

/-- A new select on a side of a join is as high as the side. -/
theorem hand {sides : List Nat} (here : plan.nodeAt slot = .ok id)
    (isSelect : (plan.operator id).kind = .select) (isInput : join ∈ plan.inputs id)
    (isJoin : (plan.operator join).kind = .join)
    (done : plan.selectJoinInput slot join condition sides = .ok (some plan')) :
    ∃ k' < k, plan'.SelectWeight k' := by
  obtain ⟨regular, height, leveled, small⟩ := bound
  obtain ⟨side, _, input, _, isSide, _, _, placed⟩ := selectJoinInput_some done
  have sideMem := List.mem_of_getElem? isSide
  have other : (plan.operator join).kind ≠ .select := by
    rw [isJoin]
    exact OperatorKind.noConfusion
  have above : height join ≤ height id := (leveled id join isInput).1
  have under : height input < height join := (leveled join input sideMem).2 other
  have hands : plan.Hands slot id join input side condition _ _ plan' :=
    ⟨regular, here, isSide, fun member => Nat.not_lt_of_le above ((leveled join id member).2 other),
      regular.grows .unpartitioned rfl rfl (regular.inputs join input sideMem), placed⟩
  generalize (plan.addOver (.select condition) input .unpartitioned).1 = grown,
    (plan.addOver (.select condition) input .unpartitioned).2 = m at hands
  let height' := Function.update height m (height input)
  have new : height' m = height input := Function.update_self ..
  have old : ∀ n, plan.contains n = true → height' n = height n := fun n present =>
    Function.update_of_ne (hands.grows.ne_of_contains present) _ _
  have atSide : height' input = height input := old input (regular.inputs join input sideMem)
  have atJoin : height' join = height join := old join (contains_of_mem sideMem)
  refine ⟨plan'.load .none (plan'.weigh .select fun n => height' n + 1), ?_, hands.regular', height',
    fun n t member => ?_, Nat.le_refl _⟩
  · -- The slot led to the old select, and the side of the join leads to the new one.
    have moved := hands.load (plan'.weigh .select fun n => height' n + 1)
    have same : plan.load .none (plan'.weigh .select fun n => height' n + 1) =
        plan.load .none (plan.weigh .select fun n => height n + 1) :=
      regular.load_weigh fun n present =>
        ⟨hands.kinds (hands.grows.ne_of_contains present), congrArg Nat.succ (old n present)⟩
    have present : plan.contains id = true := contains_of_mem isInput
    rw [same, weigh_of hands.isSelect, new, weigh_of (n := id), old id present,
      weigh_other (n := join)] at moved
    · omega
    · rwa [hands.kinds hands.joinOld]
    · rwa [hands.kinds (hands.grows.ne_of_contains present)]
  · rcases hands.mem_inputs member with ⟨rfl, rfl⟩ | ⟨rfl, rfl⟩ | ⟨rfl, holds⟩ | ⟨isOld, member⟩
    · rw [new, atSide]
      exact ⟨Nat.le_refl _, fun impossible => absurd hands.isSelect impossible⟩
    · rw [new, atJoin]
      exact ⟨Nat.le_of_lt under, fun _ => under⟩
    · have present := contains_of_mem holds
      obtain ⟨le, lt⟩ := leveled n id holds
      rw [atJoin, old n present, hands.kinds (hands.grows.ne_of_contains present)]
      exact ⟨above.trans le, fun other => above.trans_lt (lt other)⟩
    · rw [old n (contains_of_mem member), old t (regular.inputs n t member), hands.kinds isOld]
      exact leveled n t member

theorem pushSelect (done : plan.pushSelect slot = .ok (some plan')) :
    ∃ k' < k, plan'.SelectWeight k' := by
  obtain ⟨id, condition, child, here, movable, done⟩ := pushSelect_some done
  obtain ⟨operator, _, isInput, _⟩ := movableSelect_some movable
  have isSelect : (plan.operator id).kind = .select := by
    rw [operator]
    rfl
  have single : plan.inputs id = [child] := bound.1.inputs_eq_singleton isInput (by rw [operator]; rfl)
  have isInput := List.mem_of_getElem? isInput
  rcases done with ⟨passed, done⟩ | ⟨⟨joined, operator⟩, done⟩ | ⟨⟨joined, operator⟩, done⟩
  · refine bound.swap here isSelect single ?_ done
    rcases passed with ⟨_, operator⟩ | ⟨_, operator⟩ | operator | ⟨_, _, operator, _⟩ <;>
      rw [operator] <;> exact OperatorKind.noConfusion
  · exact bound.hand here isSelect isInput (by rw [operator]; rfl) done
  · exact bound.hand here isSelect isInput (by rw [operator]; rfl) done

/-- A select that becomes part of a join leaves an edge less that leads to a select. -/
theorem mergeSelectIntoJoin (done : plan.mergeSelectIntoJoin slot = .ok (some plan')) :
    ∃ k' < k, plan'.SelectWeight k' := by
  obtain ⟨regular, height, leveled, small⟩ := bound
  obtain ⟨id, condition, join, joined, here, movable, isJoin, placed⟩ := mergeSelectIntoJoin_some done
  obtain ⟨isSelect, _, isInput, _⟩ := movableSelect_some movable
  have isInput := List.mem_of_getElem? isInput
  let op : Operator := .join .inner (.conjunction
    ((joined.conjuncts ++ condition.conjuncts).filter (!·.isTrue)))
  have nested : op.nested = (plan.operator join).nested := by rw [isJoin]; rfl
  have arity : op.arity = (plan.operator join).arity := by rw [isJoin]; rfl
  have kinds : ∀ n, (plan'.operator n).kind = (plan.operator n).kind := fun n =>
    (kind_setSlot placed).trans (operator_setOperator_keeps _ (by rw [isJoin]; rfl))
  have here' := (nodeAt_setOperator nested).mpr here
  have regular' : (plan.setOperator join op).Regular :=
    regular.setOperator arity fun c member => by cases member
  let w := plan.weigh .select fun n => height n + 1
  replace small : plan.load .none w ≤ k := small
  have changed : (plan.setOperator join op).load .none w = plan.load .none w := by
    simpa using load_setOperator (b := .none) (regular.inputs id join isInput) nested
  have moved := load_setSlot (b := .none) (w := w) regular'.numbered here' placed
  have atSelect : w id = height id + 1 := weigh_of (by rw [isSelect]; rfl)
  have atJoin : w join = 0 := weigh_other (by rw [isJoin]; exact OperatorKind.noConfusion)
  refine ⟨plan'.load .none w, by omega, regular'.setSlot here' placed
    (contains_modify.trans (regular.inputs id join isInput)), height, fun n t member => ?_,
    by rw [weigh_congr kinds]⟩
  rw [kinds]
  rcases mem_inputs_setSlot regular'.numbered here' placed member with member | ⟨rfl, index, rfl⟩
  · rw [inputs_setOperator] at member
    exact leveled n t member
  · obtain ⟨le, lt⟩ := leveled n id (List.mem_of_getElem? (input_ok_iff.mp here))
    have above := (leveled id t isInput).1
    exact ⟨above.trans le, fun other => above.trans_lt (lt other)⟩

end SelectWeight

theorem selectWeight_potential :
    Potential [.pushSelect, .mergeSelectIntoJoin] fun plan k => plan.SelectWeight k where
  isLocal rule member := by
    fin_cases member <;> rfl
  only only bound := bound.onlySchemas only
  lowers member isLocal _ _ bound done := by
    simp only [List.mem_cons, List.not_mem_nil, or_false] at member
    rcases member with rfl | rfl
    · cases isLocal
      exact bound.pushSelect done
    · cases isLocal
      exact bound.mergeSelectIntoJoin done

/-! ## Limits -/

/-- A node with one input that has a shape. -/
theorem isMatch_single {allowed : OperatorKind → Bool} {pattern : Pattern}
    (isMatch : (Pattern.shape allowed [pattern]).isMatch plan id = true) :
    allowed (plan.operator id).kind = true ∧
      ∃ c, plan.inputs id = [c] ∧ pattern.isMatch plan c = true := by
  rw [Pattern.isMatch, Bool.and_eq_true] at isMatch
  obtain ⟨isAllowed, inputs⟩ := isMatch
  refine ⟨isAllowed, ?_⟩
  match found : plan.inputs id with
  | [] => rw [found] at inputs; cases inputs
  | c :: rest =>
    rw [found, Pattern.areMatches, Bool.and_eq_true] at inputs
    have none : rest = [] := by simpa [Pattern.areMatches] using inputs.2
    exact ⟨c, by rw [none], inputs.1⟩

/-- A limit over another one, and the limit that takes the place of both. -/
theorem mergeLimits_some (done : plan.mergeLimits slot = .ok (some plan')) :
    ∃ id inner x, ∃ outer below : Limit, plan.nodeAt slot = .ok id ∧
      plan.operator id = .limit outer.count outer.offset ∧ (plan.inputs id)[0]? = some inner ∧
      plan.operator inner = .limit below.count below.offset ∧ (plan.inputs inner)[0]? = some x ∧
      (plan.addOver (.limit (outer.merge below).count (outer.merge below).offset) x
        (plan.mode id)).1.setSlot slot (plan.addOver (.limit (outer.merge below).count
          (outer.merge below).offset) x (plan.mode id)).2 = .ok plan' := by
  obtain ⟨id, here, done⟩ := bind_ok_iff.mp done
  obtain ⟨inner, isInput, done⟩ := bind_ok_iff.mp done
  split at done
  · rename_i count offset innerCount innerOffset operator below
    obtain ⟨x, isBelow, done⟩ := bind_ok_iff.mp done
    obtain ⟨final, placed, same⟩ := bind_ok_iff.mp done
    cases pure_ok_iff.mp same
    exact ⟨id, inner, x, ⟨count, offset⟩, ⟨innerCount, innerOffset⟩, here, operator,
      input_ok_iff.mp isInput, below, input_ok_iff.mp isBelow, placed⟩
  · cases pure_ok_iff.mp done

/-- A limit over a projection or an assignment that no other node has as an input. -/
theorem pushLimit_some (here : plan.nodeAt slot = .ok id)
    (isMatch : Rule.pushLimit.pattern.isMatch plan id = true)
    (done : plan.pushLimit slot = .ok (some plan')) :
    ∃ count offset child, plan.operator id = .limit count offset ∧ plan.inputs id = [child] ∧
      ((∃ vars, plan.operator child = .project vars) ∨
        ∃ vars exprs, plan.operator child = .assign vars exprs) ∧
      plan.isShared child = false ∧ plan.swapWithInput slot id child = .ok plan' := by
  obtain ⟨isLimit, child, single, allowed⟩ := isMatch_single isMatch
  obtain ⟨id', here', done⟩ := bind_ok_iff.mp done
  obtain rfl : id = id' := Except.ok.inj (here.symm.trans here')
  obtain ⟨child', isInput, done⟩ := bind_ok_iff.mp done
  obtain rfl : child = child' := by
    rw [input_ok_iff, single] at isInput
    exact Option.some.inj isInput
  obtain ⟨count, offset, operator⟩ : ∃ count offset, plan.operator id = .limit count offset := by
    cases operator : plan.operator id <;> simp_all [Operator.kind]
  have passed : (∃ vars, plan.operator child = .project vars) ∨
      ∃ vars exprs, plan.operator child = .assign vars exprs := by
    cases below : plan.operator child <;> simp_all [Pattern.isMatch, Operator.kind]
  split at done
  · cases pure_ok_iff.mp done
  · rename_i single'
    obtain ⟨final, swapped, done⟩ := bind_ok_iff.mp done
    cases pure_ok_iff.mp done
    exact ⟨count, offset, child, operator, single, passed, by simpa using single', swapped⟩

/-- The weight of the plan while limits sink is the number, or less. -/
def LimitWeight (plan : Plan) (k : Nat) : Prop :=
  plan.Regular ∧ ∃ rank, plan.InputsBelow rank ∧
    plan.load .none (plan.weigh .limit fun n => 2 ^ rank n) ≤ k

/-- Two nodes that change places exchange their ranks, if no other node has the lower one. -/
theorem Swaps.inputsBelow (swaps : plan.Swaps slot id c x plan') (below : plan.InputsBelow rank)
    (only : ∀ n, c ∈ plan.inputs n → n = id) : plan'.InputsBelow (rank ∘ Equiv.swap id c) := by
  have same : ∀ n, n ≠ id → n ≠ c → (rank ∘ Equiv.swap id c) n = rank n := fun n first second =>
    congrArg rank (Equiv.swap_apply_of_ne_of_ne first second)
  have atId : (rank ∘ Equiv.swap id c) id = rank c := congrArg rank (Equiv.swap_apply_left id c)
  have atInput : (rank ∘ Equiv.swap id c) c = rank id := congrArg rank (Equiv.swap_apply_right id c)
  have upper : rank c < rank id := below id c (List.mem_of_getElem? swaps.first)
  have lower : rank x < rank c := below c x swaps.under_mem
  intro n t member
  rcases swaps.mem_inputs member with ⟨rfl, rfl⟩ | ⟨rfl, rfl⟩ | ⟨rfl, holds⟩ | ⟨notId, old⟩
  · rw [atId, same t (fun isId => by subst isId; omega) (fun isInput => by subst isInput; omega)]
    exact lower
  · rwa [atId, atInput]
  · have less := below n id holds
    rwa [atInput, same n (fun isId => by subst isId; omega) (fun isInput => by subst isInput; omega)]
  · have less := below n t old
    have falls : (rank ∘ Equiv.swap id c) t ≤ rank t := by
      by_cases isId : t = id
      · rw [isId, atId]
        exact Nat.le_of_lt upper
      · refine (same t isId ?_).le
        rintro rfl
        exact notId (only n old)
    have rises : rank n ≤ (rank ∘ Equiv.swap id c) n := by
      by_cases isInput : n = c
      · rw [isInput, atInput]
        exact Nat.le_of_lt upper
      · exact (same n notId isInput).ge
    omega

namespace LimitWeight

variable (bound : plan.LimitWeight k)

include bound

theorem onlySchemas (only : plan.OnlySchemas plan') : plan'.LimitWeight k := by
  obtain ⟨regular, rank, below, small⟩ := bound
  refine ⟨regular.onlySchemas only, rank, below.onlySchemas only, ?_⟩
  rwa [only.load, weigh_congr fun n => congrArg Operator.kind (only.operator n)]

theorem pushLimit (here : plan.nodeAt slot = .ok id)
    (isMatch : Rule.pushLimit.pattern.isMatch plan id = true)
    (done : plan.pushLimit slot = .ok (some plan')) : ∃ k' < k, plan'.LimitWeight k' := by
  obtain ⟨regular, rank, below, small⟩ := bound
  obtain ⟨count, offset, c, operator, single, passed, shared, done⟩ := pushLimit_some here isMatch done
  have isInput : c ∈ plan.inputs id := by simp [single]
  have upper := below id c isInput
  have isLimit : (plan.operator id).kind = .limit := by rw [operator]; rfl
  have other : (plan.operator c).kind ≠ .limit := by
    rcases passed with ⟨_, below⟩ | ⟨_, _, below⟩ <;> rw [below] <;> exact OperatorKind.noConfusion
  obtain ⟨x, swaps⟩ := regular.swaps here single
    (fun member => Nat.lt_asymm upper (below c id member)) done
  have sunk : 2 ^ rank (Equiv.swap id c id) < 2 ^ rank id := by
    rw [Equiv.swap_apply_left]
    exact Nat.pow_lt_pow_right (by omega) upper
  have lighter : plan'.load .none (plan'.weigh .limit fun n => 2 ^ rank (Equiv.swap id c n)) <
      plan.load .none (plan.weigh .limit fun n => 2 ^ rank n) := by
    refine swaps.lighter isLimit sunk fun t limit => ?_
    by_cases isId : t = id
    · rw [isId]
      exact Nat.le_of_lt sunk
    · have notInput : t ≠ c := by
        rintro rfl
        exact other limit
      rw [Equiv.swap_apply_of_ne_of_ne isId notInput]
  exact ⟨_, lighter.trans_le small, swaps.regular', rank ∘ Equiv.swap id c,
    swaps.inputsBelow below fun n member => eq_of_not_shared shared member isInput, Nat.le_refl _⟩

/-- One limit in place of two. It is a rank above what is below them. -/
theorem mergeLimits (done : plan.mergeLimits slot = .ok (some plan')) :
    ∃ k' < k, plan'.LimitWeight k' := by
  obtain ⟨regular, rank, below, small⟩ := bound
  obtain ⟨id, inner, x, above, beneath, here, operator, isInput, _, isBelow, placed⟩ :=
    mergeLimits_some done
  replace isInput := List.mem_of_getElem? isInput
  replace isBelow := List.mem_of_getElem? isBelow
  have presentId : plan.contains id = true := contains_of_mem isInput
  have presentBelow : plan.contains x = true := regular.inputs inner x isBelow
  have grows : plan.Grows (.limit (above.merge beneath).count (above.merge beneath).offset) x _ _ :=
    regular.grows (plan.mode id) rfl rfl presentBelow
  generalize (plan.addOver (.limit (above.merge beneath).count (above.merge beneath).offset) x
    (plan.mode id)).1 = grown, (plan.addOver (.limit (above.merge beneath).count
      (above.merge beneath).offset) x (plan.mode id)).2 = m at grows placed
  let rank' := Function.update rank m (rank x + 1)
  have new : rank' m = rank x + 1 := Function.update_self ..
  have old : ∀ n, plan.contains n = true → rank' n = rank n := fun n present =>
    Function.update_of_ne (grows.ne_of_contains present) _ _
  have falls : rank x + 2 ≤ rank id :=
    Nat.lt_of_le_of_lt (below inner x isBelow) (below id inner isInput)
  have here' := grows.nodeAt here
  have kinds : ∀ n, plan.contains n = true → (plan'.operator n).kind = (plan.operator n).kind := by
    intro n present
    rw [kind_setSlot placed, grows.operator_of_ne (grows.ne_of_contains present)]
  let weight := plan'.weigh .limit fun n => 2 ^ rank' n
  have same : plan.load .none weight = plan.load .none (plan.weigh .limit fun n => 2 ^ rank n) :=
    regular.load_weigh fun n present => ⟨kinds n present, congrArg (2 ^ ·) (old n present)⟩
  have moved := load_setSlot (b := .none) (w := weight) grows.regular.numbered here' placed
  have atId : weight id = 2 ^ rank id := by
    rw [← old id presentId]
    exact weigh_of ((kinds id presentId).trans (by rw [operator]; rfl))
  have atNew : weight m = 2 ^ (rank x + 1) := by
    rw [← new]
    refine weigh_of ?_
    rw [kind_setSlot placed, grows.operator]
    rfl
  have light : weight x ≤ 2 ^ rank x := by
    rw [← old x presentBelow]
    simp only [weight, weigh]
    split
    · exact Nat.le_refl _
    · exact Nat.zero_le _
  have heavy : 2 ^ (rank x + 2) ≤ 2 ^ rank id := Nat.pow_le_pow_right (by omega) falls
  have positive : 0 < 2 ^ rank x := Nat.pow_pos (by omega)
  rw [grows.load, Burden.of_none, same, atId, atNew, Nat.pow_succ] at moved
  rw [Nat.pow_succ, Nat.pow_succ] at heavy
  refine ⟨plan'.load .none weight, by omega, grows.regular.setSlot here' placed grows.contains, rank',
    fun n t member => ?_, Nat.le_refl _⟩
  rcases mem_inputs_setSlot grows.regular.numbered here' placed member with
    member | ⟨rfl, index, rfl⟩
  · rcases grows.mem_inputs member with ⟨rfl, rfl⟩ | ⟨_, member⟩
    · rw [new, old t presentBelow]
      exact Nat.lt_succ_self _
    · rw [old n (contains_of_mem member), old t (regular.inputs n t member)]
      exact below n t member
  · have holds : id ∈ plan.inputs n := List.mem_of_getElem? (input_ok_iff.mp here)
    rw [new, old n (contains_of_mem holds)]
    exact Nat.lt_of_lt_of_le falls (Nat.le_of_lt (below n id holds))

end LimitWeight

theorem limitWeight_potential :
    Potential [.mergeLimits, .pushLimit] fun plan k => plan.LimitWeight k where
  isLocal rule member := by
    fin_cases member <;> rfl
  only only bound := bound.onlySchemas only
  lowers member isLocal here isMatch bound done := by
    simp only [List.mem_cons, List.not_mem_nil, or_false] at member
    rcases member with rfl | rfl
    · cases isLocal
      exact bound.mergeLimits done
    · cases isLocal
      exact bound.pushLimit here isMatch done

end QueryOptimizer.Plan
