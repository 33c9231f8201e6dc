import Mathlib
import QueryOptimizer.Proofs.Plan.Inserted
import QueryOptimizer.Proofs.Plan.Regrouped

/-! # Changes below a node

A change at or below a node leaves everything above the node as it is. Then a slot above it still holds
what it held.
-/

namespace QueryOptimizer.Plan

variable {plan plan' plan'' mid : Plan} {slot : Slot} {old new n m h holder id : NodeId} {top : Option NodeId}

/-- Whether the children of everything that is really above a node are the same. -/
def Spares (top : Option NodeId) (plan plan' : Plan) : Prop :=
  ∀ h ∈ top, plan'.root = plan.root ∧ ∀ n, plan.Reaches n → plan.Below n h → n ≠ h →
    plan'.inputs n = plan.inputs n ∧ (plan'.operator n).nested = (plan.operator n).nested

/-- A node that is above another one, and not the same, is not below it. -/
theorem WellFormed.not_below (wellFormed : plan.WellFormed) (reached : plan.Reaches n)
    (child : m ∈ plan.children n) : ¬ plan.Below m n := by
  intro below
  obtain ⟨rank, falls⟩ := wellFormed.acyclic
  have lower := falls n reached m (mem_sources_of_child child)
  exact Nat.lt_irrefl _ (lower.trans_le (falls.below (reached.child child) below))

namespace Spares

theorem refl (top : Option NodeId) (plan : Plan) : Spares top plan plan :=
  fun _ _ => ⟨rfl, fun _ _ _ _ => ⟨rfl, rfl⟩⟩

theorem retains (spares : Spares top plan plan') (wellFormed : plan.WellFormed) :
    Retains top plan plan' := by
  intro h isTop
  obtain ⟨root, above⟩ := spares h isTop
  refine ⟨root, fun a b reached path below => ?_⟩
  induction path with
  | refl => exact .refl
  | @tail n m path member ih =>
    have reachedN : plan.Reaches n := reached.trans path
    have belowN : plan.Below n h := .head member below
    have different : n ≠ h := by
      rintro rfl
      exact wellFormed.not_below reachedN member below
    obtain ⟨inputs, nested⟩ := above n reachedN belowN different
    refine (ih belowN).child ?_
    unfold children nestedRoots at member ⊢
    rw [inputs, nested]
    exact member

theorem trans (first : Spares top plan plan') (second : Spares top plan' plan'')
    (wellFormed : plan.WellFormed) : Spares top plan plan'' := by
  intro h isTop
  obtain ⟨root, above⟩ := first h isTop
  obtain ⟨root', above'⟩ := second h isTop
  obtain ⟨_, path⟩ := first.retains wellFormed h isTop
  refine ⟨root'.trans root, fun n reached below different => ?_⟩
  have reached' : plan'.Reaches n := by
    unfold Reaches
    rw [root]
    exact path _ _ .refl reached below
  obtain ⟨inputs, nested⟩ := above n reached below different
  obtain ⟨inputs', nested'⟩ := above' n reached' (path n h reached below .refl) different
  exact ⟨inputs'.trans inputs, nested'.trans nested⟩

/-- What is above the holder of a slot is above the node in the slot. -/
theorem lift (spares : Spares (some n) plan plan') (wellFormed : plan.WellFormed)
    (holds : plan.HoldsReachable slot) (here : plan.nodeAt slot = .ok n) :
    Spares slot.holder? plan plan' := by
  intro h held
  obtain ⟨root, above⟩ := spares n rfl
  have child := mem_children_of_nodeAt here held
  refine ⟨root, fun a reached below _ => above a reached (below.child child) ?_⟩
  rintro rfl
  exact wellFormed.not_below (holds h held) child below

/-- A slot keeps its node, if only something at or below the node changes. -/
theorem nodeAt (spares : Spares (some n) plan plan') (wellFormed : plan.WellFormed)
    (holds : plan.HoldsReachable slot) (here : plan.nodeAt slot = .ok n) :
    plan'.nodeAt slot = .ok n := by
  obtain ⟨root, above⟩ := spares n rfl
  refine (nodeAt_congr root fun h held => ?_).mpr here
  have child := mem_children_of_nodeAt here held
  refine above h (holds h held) (.single child) ?_
  rintro rfl
  exact wellFormed.not_below (holds h held) child .refl

end Spares

theorem OnlySchemas.spares (only : plan.OnlySchemas plan') (top : Option NodeId) : Spares top plan plan' :=
  fun _ _ => ⟨only.root, fun n _ _ _ => ⟨only.inputs n, by rw [only.operator n]⟩⟩

theorem Wedged.spares {parent input : NodeId} {index : Nat} {node : Node}
    (wedged : plan.Wedged parent index input new node plan') (wellFormed : plan.WellFormed) :
    Spares (some parent) plan plan' := by
  rintro _ ⟨⟩
  refine ⟨wedged.root, fun n reached _ different => ?_⟩
  have old := wedged.ne_new wellFormed reached
  exact ⟨wedged.others n old different, by rw [wedged.operator n old]⟩

theorem Rewired.spares (rewired : plan.Rewired slot old new plan') : Spares slot.holder? plan plan' := by
  intro h held
  have notRoot : slot ≠ .root := by
    rintro rfl
    cases held
  refine ⟨rewired.sameRoot notRoot, fun n _ _ different => ?_⟩
  have same := rewired.others n fun isHolder => different (Option.some.inj (isHolder.symm.trans held))
  unfold Plan.inputs Plan.operator
  rw [same]
  exact ⟨rfl, rfl⟩

end QueryOptimizer.Plan
