import Mathlib
import QueryOptimizer.Proofs.Plan.Layer

/-! # What changes of plans keep

A plan is redrawn if its nodes get other properties and its joins other sides, but all edges lead
between the nodes between which they led. What is above a slot stays above it when the plan is
redrawn, or reworked at the slot.
-/

namespace QueryOptimizer

variable {op op' op'' : Operator}

/-- The variables that a group-by passes through, under their new names. -/
def Operator.groupOutputs : Operator → List Var
  | .groupBy keys decor _ => (keys ++ decor).map (·.1)
  | _ => []

/-- An operator that has the place of another one in a plan. -/
structure Operator.Resembles (op op' : Operator) : Prop where
  nested : op'.nested = op.nested
  arity : op'.arity = op.arity
  source : ∀ owner, op' = .nestedSource owner ↔ op = .nestedSource owner
  outputs : op'.groupOutputs.Perm op.groupOutputs

theorem Operator.Resembles.refl (op : Operator) : op.Resembles op :=
  ⟨rfl, rfl, fun _ => Iff.rfl, .refl _⟩

theorem Operator.Resembles.trans (first : op.Resembles op') (second : op'.Resembles op'') :
    op.Resembles op'' :=
  ⟨second.nested.trans first.nested, second.arity.trans first.arity,
    fun owner => (second.source owner).trans (first.source owner),
    second.outputs.trans first.outputs⟩

namespace Plan

variable {plan plan' plan'' mid : Plan} {slot : Slot} {old new n m a b c owner holder : NodeId}
  {layer base : List NodeId} {rank : NodeId → Nat}

/-- A plan with the same nodes and edges, up to the order of inputs. -/
structure Redrawn (plan plan' : Plan) : Prop where
  root : plan'.root = plan.root
  contains : ∀ n, plan'.contains n = plan.contains n
  tidy : plan.Tidy → plan'.Tidy
  positions : ∀ n, (plan'.node n).inputs.map (·.1) = (plan.node n).inputs.map (·.1)
  inputs : ∀ n, (plan'.inputs n).Perm (plan.inputs n)
  operator : ∀ n, (plan.operator n).Resembles (plan'.operator n)

namespace Redrawn

theorem refl (plan : Plan) : plan.Redrawn plan :=
  ⟨rfl, fun _ => rfl, fun tidy => tidy, fun _ => rfl, fun _ => .refl _, fun _ => .refl _⟩

variable (redrawn : plan.Redrawn plan')

include redrawn

theorem trans (later : plan'.Redrawn plan'') : plan.Redrawn plan'' :=
  ⟨later.root.trans redrawn.root, fun n => (later.contains n).trans (redrawn.contains n),
    fun tidy => later.tidy (redrawn.tidy tidy),
    fun n => (later.positions n).trans (redrawn.positions n),
    fun n => (later.inputs n).trans (redrawn.inputs n),
    fun n => (redrawn.operator n).trans (later.operator n)⟩

theorem nestedRoots (n : NodeId) : plan'.nestedRoots n = plan.nestedRoots n := by
  unfold Plan.nestedRoots
  rw [(redrawn.operator n).nested]

theorem mem_children : c ∈ plan'.children n ↔ c ∈ plan.children n := by
  unfold children
  rw [List.mem_append, List.mem_append, (redrawn.inputs n).mem_iff, redrawn.nestedRoots n]

theorem below_iff : plan'.Below n m ↔ plan.Below n m := by
  unfold Below
  simp only [redrawn.mem_children]

theorem reaches_iff : plan'.Reaches n ↔ plan.Reaches n := by
  unfold Reaches
  rw [redrawn.root, redrawn.below_iff]

theorem reads_iff : plan'.Reads owner n ↔ plan.Reads owner n := by
  constructor
  · intro reads
    induction reads with
    | source operator => exact .source (((redrawn.operator _).source owner).mp operator)
    | input member _ ih => exact .input ((redrawn.inputs _).mem_iff.mp member) ih
  · intro reads
    induction reads with
    | source operator => exact .source (((redrawn.operator _).source owner).mpr operator)
    | input member _ ih => exact .input ((redrawn.inputs _).mem_iff.mpr member) ih

/-- An owner of nested plans has one input, which stays. -/
theorem inputs_owner (wellFormed : plan.WellFormed) (reached : plan.Reaches owner)
    (nested : plan.nestedRoots owner ≠ []) : plan'.inputs owner = plan.inputs owner := by
  obtain ⟨input, inputs⟩ := wellFormed.exists_input reached nested
  have perm := redrawn.inputs owner
  rw [inputs] at perm ⊢
  exact List.perm_singleton.mp perm

theorem mem_sources (wellFormed : plan.WellFormed) (reached : plan.Reaches n) :
    c ∈ plan'.sources n ↔ c ∈ plan.sources n := by
  rw [mem_sources_iff, mem_sources_iff, redrawn.mem_children]
  refine or_congr_right (exists_congr fun owner => ?_)
  rw [(redrawn.operator n).source owner]
  refine and_congr_right fun operator => ?_
  obtain ⟨reachedOwner, nested⟩ := wellFormed.reaches_of_reads reached (.source operator)
  rw [redrawn.inputs_owner wellFormed reachedOwner nested]

theorem wellFormed (wellFormed : plan.WellFormed) : plan'.WellFormed where
  tidy := redrawn.tidy wellFormed.tidy
  present n reached := by
    rw [redrawn.contains]
    exact wellFormed.present n (redrawn.reaches_iff.mp reached)
  numbered n reached := by
    have length := congrArg List.length (redrawn.positions n)
    simp only [List.length_map] at length
    rw [redrawn.positions, length]
    exact wellFormed.numbered n (redrawn.reaches_iff.mp reached)
  arity n reached := by
    rw [(redrawn.inputs n).length_eq, (redrawn.operator n).arity]
    exact wellFormed.arity n (redrawn.reaches_iff.mp reached)
  acyclic := by
    obtain ⟨rank, falls⟩ := wellFormed.acyclic
    refine ⟨rank, fun n reached c source => ?_⟩
    have reached := redrawn.reaches_iff.mp reached
    exact falls n reached c ((redrawn.mem_sources wellFormed reached).mp source)
  top owner reads := wellFormed.top owner (redrawn.root ▸ redrawn.reads_iff.mp reads)
  innermost n r owner reached isRoot reads :=
    wellFormed.innermost n r owner (redrawn.reaches_iff.mp reached) (redrawn.nestedRoots n ▸ isRoot)
      (redrawn.reads_iff.mp reads)

end Redrawn

theorem OnlySchemas.redrawn (only : plan.OnlySchemas plan') : plan.Redrawn plan' where
  root := only.root
  contains := only.contains
  tidy := only.tidy
  positions n := by rw [only.edges n]
  inputs n := by rw [only.inputs n]
  operator n := by
    rw [only.operator n]
    exact .refl _

/-- A node that keeps its edges, under an operator that resembles the one that it has. -/
theorem Redrawn.modify (plan : Plan) (id : NodeId) {f : Node → Node}
    (edges : ∀ node, (f node).inputs = node.inputs)
    (resembles : (plan.operator id).Resembles (f (plan.node id)).operator) :
    plan.Redrawn (plan.modify id f) where
  root := rfl
  contains n := contains_modify
  tidy tidy := tidy.modify
  positions n := by rw [node_modify_keeps Node.inputs edges]
  inputs n := by rw [inputs_modify edges]
  operator n := by
    unfold Plan.operator
    rcases node_modify_cases plan id n f with same | ⟨rfl, changed⟩
    · rw [same]
      exact .refl _
    · rw [changed]
      exact resembles

theorem Redrawn.setOperator (plan : Plan) (id : NodeId) {op : Operator}
    (resembles : (plan.operator id).Resembles op) : plan.Redrawn (plan.setOperator id op) :=
  .modify plan id (fun _ => rfl) resembles

/-- The sides of a join change places, and its schema is lost. -/
theorem swapInputs_spec (wellFormed : plan.WellFormed) (reached : plan.Reaches n)
    (sides : plan.inputs n = [a, b]) (done : plan.swapInputs n 0 1 = .ok plan') :
    (plan'.root = plan.root ∧ plan'.nodes.length = plan.nodes.length ∧
      (∀ m, plan'.contains m = plan.contains m) ∧ (plan.Tidy → plan'.Tidy)) ∧
    (plan.node n).inputs = [(0, a), (1, b)] ∧
    plan'.node n = { plan.node n with inputs := [(0, b), (1, a)], schema := none } ∧
    ∀ m, m ≠ n → plan'.node m = plan.node m := by
  obtain ⟨left, isLeft, done⟩ := bind_ok_iff.mp done
  obtain ⟨right, isRight, done⟩ := bind_ok_iff.mp done
  cases pure_ok_iff.mp done
  rw [input_ok_iff, sides] at isLeft isRight
  cases isLeft
  cases isRight
  have present := wellFormed.present n reached
  have present' : (plan.setInput n 0 b).contains n = true := contains_modify.trans present
  obtain ⟨node, found, _, edges⟩ := (Stands.of_wellFormed wellFormed reached).node_eq
  rw [← found, sides] at edges
  refine ⟨⟨rfl, by simp [setInput, modify], fun m => contains_modify.trans contains_modify,
    fun tidy => tidy.modify.modify⟩, edges, ?_,
    fun m different => (node_modify_of_ne different).trans (node_modify_of_ne different)⟩
  unfold setInput at present' ⊢
  rw [node_modify_self present', node_modify_self present]
  unfold Node.setInput
  dsimp only
  rw [edges]
  rfl

theorem Redrawn.swapInputs (wellFormed : plan.WellFormed) (reached : plan.Reaches n)
    (sides : plan.inputs n = [a, b]) (done : plan.swapInputs n 0 1 = .ok plan') :
    plan.Redrawn plan' ∧ plan'.inputs n = [b, a] ∧ ∀ m, m ≠ n → plan'.node m = plan.node m := by
  obtain ⟨⟨root, _, contains, tidy⟩, edges, here, others⟩ := swapInputs_spec wellFormed reached sides done
  have swapped : plan'.inputs n = [b, a] := by
    unfold Plan.inputs
    rw [here]
    rfl
  refine ⟨⟨root, contains, tidy, fun m => ?_, fun m => ?_, fun m => ?_⟩, swapped, others⟩
  · by_cases same : m = n
    · subst same
      rw [here, edges]
      rfl
    · rw [others m same]
  · by_cases same : m = n
    · subst same
      rw [swapped, sides]
      exact .swap a b []
    · rw [inputs_congr (others m same)]
  · unfold Plan.operator
    by_cases same : m = n
    · subst same
      rw [here]
      exact .refl _
    · rw [others m same]
      exact .refl _

/-! ## What is above a slot -/

/-- Whether what is above a node still leads to it. -/
def Retains (holder : Option NodeId) (plan plan' : Plan) : Prop :=
  ∀ h ∈ holder, plan'.root = plan.root ∧
    ∀ a b, plan.Reaches a → plan.Below a b → plan.Below b h → plan'.Below a b

namespace Retains

variable {top : Option NodeId}

theorem refl (top : Option NodeId) (plan : Plan) : Retains top plan plan :=
  fun _ _ => ⟨rfl, fun _ _ _ path _ => path⟩

theorem reaches (retains : Retains (some holder) plan plan') (reached : plan.Reaches holder) :
    plan'.Reaches holder := by
  obtain ⟨root, above⟩ := retains holder rfl
  unfold Reaches
  rw [root]
  exact above _ _ .refl reached .refl

theorem trans (first : Retains top plan plan') (second : Retains top plan' plan'') :
    Retains top plan plan'' := by
  intro h isTop
  obtain ⟨root, above⟩ := first h isTop
  obtain ⟨root', above'⟩ := second h isTop
  refine ⟨root'.trans root, fun a b reached path below => ?_⟩
  have reached' : plan'.Reaches a := by
    unfold Reaches
    rw [root]
    exact above _ _ .refl reached (path.trans below)
  exact above' a b reached' (above a b reached path below)
    (above b h (reached.trans path) below .refl)

/-- What is above the holder of a slot is above the node in the slot. -/
theorem lift (retains : Retains (some n) plan plan') (here : plan.nodeAt slot = .ok n) :
    Retains slot.holder? plan plan' := by
  intro h held
  obtain ⟨root, above⟩ := retains n rfl
  exact ⟨root, fun a b reached path below =>
    above a b reached path (below.child (mem_children_of_nodeAt here held))⟩

end Retains

theorem HoldsReachable.retained (holds : plan.HoldsReachable slot)
    (retains : Retains slot.holder? plan plan') : plan'.HoldsReachable slot := by
  intro holder held
  rw [held] at retains
  exact retains.reaches (holds holder held)

theorem Redrawn.retains (redrawn : plan.Redrawn plan') (top : Option NodeId) :
    Retains top plan plan' :=
  fun _ _ => ⟨redrawn.root, fun _ _ _ path _ => redrawn.below_iff.mpr path⟩

theorem RankedBy.below (falls : plan.RankedBy rank) (reached : plan.Reaches n)
    (below : plan.Below n m) : rank m ≤ rank n := by
  induction below with
  | refl => exact le_rfl
  | tail path member ih =>
    exact (falls _ (reached.trans path) _ (mem_sources_of_child member)).le.trans ih

theorem Reworked.retains (reworked : plan.Reworked slot old new layer base mid plan') :
    Retains slot.holder? plan plan' := by
  intro holder held
  obtain ⟨rank, falls⟩ := reworked.before.acyclic
  have isChild := mem_children_of_nodeAt reworked.here held
  have lower : rank old < rank holder :=
    falls holder (reworked.holds holder held) old (mem_sources_of_child isChild)
  have notRoot : slot ≠ .root := by
    rintro rfl
    cases held
  refine ⟨(reworked.rewired.sameRoot notRoot).trans reworked.root,
    fun a b reached path below => ?_⟩
  induction path with
  | refl => exact .refl
  | @tail parent b path member ih =>
    have reachedParent : plan.Reaches parent := reached.trans path
    have above : rank old < rank b :=
      lower.trans_le (falls.below (reachedParent.child member) below)
    have higher : rank old < rank parent :=
      above.trans (falls parent reachedParent b (mem_sources_of_child member))
    have outside := reworked.not_mem_of_lt reworked.before falls reworked.reaches_old
      reachedParent higher
    refine (ih (.head member below)).child ?_
    rw [← children_congr (reworked.node outside)] at member
    have different : b ≠ old := fun same => Nat.lt_irrefl _ (same ▸ above)
    exact reworked.rewired.child_kept member different

end Plan

end QueryOptimizer
