import Mathlib
import QueryOptimizer.Plan.Walk

/-! # Reachable nodes -/

namespace QueryOptimizer.Plan

variable {plan : Plan} {id below next : NodeId}

/-- Whether a node is the given one or can be reached from it through children. -/
def Below (plan : Plan) : NodeId → NodeId → Prop :=
  Relation.ReflTransGen fun parent child => child ∈ plan.children parent

/-- Whether a node can be reached from the root. -/
def Reaches (plan : Plan) (id : NodeId) : Prop := plan.Below plan.root id

theorem Below.child (reached : plan.Below id below) (member : next ∈ plan.children below) :
    plan.Below id next :=
  Relation.ReflTransGen.tail reached member

theorem Reaches.child (reached : plan.Reaches id) (member : next ∈ plan.children id) :
    plan.Reaches next :=
  Below.child reached member

theorem Reaches.input (reached : plan.Reaches id) (member : next ∈ plan.inputs id) :
    plan.Reaches next :=
  reached.child (List.mem_append_left _ member)

theorem Reaches.nestedRoot (reached : plan.Reaches id) (member : next ∈ plan.nestedRoots id) :
    plan.Reaches next :=
  reached.child (List.mem_append_right _ member)

/-- What holds at a node and goes from parents to children holds at all nodes below it. -/
theorem Below.of_closed {P : NodeId → Prop} (start : P id)
    (closed : ∀ parent, P parent → ∀ child ∈ plan.children parent, P child)
    (reached : plan.Below id below) : P below := by
  induction reached with
  | refl => exact start
  | tail _ member ih => exact closed _ ih _ member

/-- What is below a reachable node depends on the children of reachable nodes only. -/
theorem Below.congr {plan' : Plan} (same : ∀ n, plan.Reaches n → plan'.children n = plan.children n)
    (reached : plan.Reaches id) : plan'.Below id below ↔ plan.Below id below := by
  constructor
  · refine fun path => (of_closed (P := fun m => plan.Reaches m ∧ plan.Below id m) ⟨reached, .refl⟩
      (fun parent known child member => ?_) path).2
    rw [same parent known.1] at member
    exact ⟨known.1.child member, known.2.child member⟩
  · refine fun path => (of_closed (P := fun m => plan.Reaches m ∧ plan'.Below id m) ⟨reached, .refl⟩
      (fun parent known child member => ⟨known.1.child member, known.2.child ?_⟩) path).2
    rwa [same parent known.1]

end QueryOptimizer.Plan
