import QueryOptimizer.Plan.Basic

/-! # Walks through plans

A walk visits a node, then everything below its children from left to right, and every node
once.
-/

namespace QueryOptimizer

/-- The nodes of a walk in the order in which they were reached, and in the order in which
    everything below them was done. -/
structure Walk where
  entered : List NodeId := []
  finished : List NodeId := []

/-- Walks from a node. A path without repeated nodes is no longer than the plan, so that the number
    of nodes is enough fuel. -/
def Walk.visit (next : NodeId → List NodeId) : Nat → Walk → NodeId → Walk
  | 0, walk, _ => walk
  | fuel + 1, walk, id =>
      if id ∈ walk.entered then walk
      else
        let below := (next id).foldl (visit next fuel) { walk with entered := walk.entered ++ [id] }
        { below with finished := below.finished ++ [id] }

namespace Plan

/-- The walk from some nodes along `next`. -/
def walkAlong (plan : Plan) (next : NodeId → List NodeId) (starts : List NodeId) : Walk :=
  starts.foldl (Walk.visit next (plan.nodes.length + 1)) {}

/-- The nodes that can be reached from the root, in the order of the walk. -/
def reachable (plan : Plan) : List NodeId :=
  (plan.walkAlong plan.children [plan.root]).entered

/-- The nodes that can be reached from a node, each after all nodes below it. -/
def bottomUp (plan : Plan) (id : NodeId) : List NodeId :=
  (plan.walkAlong plan.children [id]).finished

/-- The nodes inside nested plans. -/
def nestedNodes (plan : Plan) : List NodeId :=
  (plan.walkAlong plan.children (plan.reachable.flatMap plan.nestedRoots)).entered

/-- The node at or below `id` that produces the variable. The last child is searched first. -/
def producer? (plan : Plan) (id : NodeId) (v : Var) : Option NodeId :=
  (plan.walkAlong (fun id => (plan.children id).reverse) [id]).entered.find? fun node =>
    decide (v ∈ (plan.operator node).produced)

/-- The nodes that cannot be reached from the root. -/
def garbage (plan : Plan) : List NodeId :=
  let reachable := plan.reachable
  plan.ids.filter fun id => decide (id ∉ reachable)

/-- Removes all nodes that cannot be reached, and returns them. -/
def collectGarbage (plan : Plan) : Plan × List NodeId :=
  (plan.garbage.foldl remove plan, plan.garbage)

end Plan

end QueryOptimizer
