import QueryOptimizer.Plan.Basic

/-! # Isomorphism of plans

Two plans are isomorphic if they are the same tree, whatever the numbers of their nodes.
-/

namespace QueryOptimizer

/-- Equality of operators, apart from the numbers of nodes in them. -/
def Operator.isSame : Operator → Operator → Bool
  | nestedSource _, nestedSource _ => true
  | groupBy keys decor _, groupBy otherKeys otherDecor _ => keys = otherKeys && decor = otherDecor
  | subplan _, subplan _ => true
  | op, other => op = other

/-- Equality of physical operators, apart from the numbers of nodes in them. -/
def Physical.isSame : Option Physical → Option Physical → Bool
  | some (nestedSource _), some (nestedSource _) => true
  | p, q => p = q

namespace Plan

/-- Whether two lists have the same length and agree item by item. -/
def pairwise {α : Type} (agree : α → α → Bool) : List α → List α → Bool
  | [], [] => true
  | a :: as, b :: bs => agree a b && pairwise agree as bs
  | _, _ => false

/-- Whether the trees below two nodes are the same, down to the depth given by the fuel. -/
def sameTree (plan other : Plan) : Nat → NodeId → NodeId → Bool
  | 0, _, _ => false
  | fuel + 1, id, otherId =>
      plan.mode id = other.mode otherId
        && (plan.operator id).isSame (other.operator otherId)
        && Physical.isSame (plan.node id).physical (other.node otherId).physical
        && pairwise (sameTree plan other fuel) (plan.inputs id) (other.inputs otherId)
        && pairwise (pairwise (sameTree plan other fuel)) (plan.operator id).nested
            (other.operator otherId).nested

/-- Whether the plans are the same tree. -/
def isIsomorphic (plan other : Plan) : Bool :=
  sameTree plan other (plan.nodes.length + 1) plan.root other.root

end Plan

end QueryOptimizer
