import QueryOptimizer.Plan.Schema

/-! # Plans written as trees

A tree describes a plan. A node that is used more than once gets a label the first time.
-/

namespace QueryOptimizer

/-- The names of nodes, the latest first. -/
abbrev Labels := List (String × NodeId)

/-- A node and what is below it. -/
inductive Tree where
  /-- The node with this label. -/
  | ref (label : String)
  /-- A node over `inputs`, which owns the nested sources in its nested plans. -/
  | node (label : Option String) (node : Node) (inputs : List Tree) (nested : List (List Tree))

namespace Tree

instance : Inhabited Tree := ⟨ref ""⟩

/-- A plan and the labels that were given so far. -/
structure Growth where
  plan : Plan := {}
  labels : Labels := []

/-- Adds a node to a plan. -/
def Growth.add (g : Growth) (label : Option String) (node : Node) : Growth × NodeId :=
  let (plan, id) := g.plan.addNode node
  ({ plan := plan, labels := (label.map (·, id)).toList ++ g.labels }, id)

/-- A node over its inputs. Its nested sources, if it is one, have an owner. -/
def place (node : Node) (owner : NodeId) (inputs : List NodeId) : Node :=
  { node with
    operator := node.operator.ownedBy owner
    physical := node.physical.map (·.ownedBy owner)
    inputs := (List.range inputs.length).zip inputs }

mutual
/-- Adds a tree to a plan: inputs first, then the node, then its nested plans. There is no result
    if a label is not known. -/
def addTo (owner : NodeId) (g : Growth) : Tree → Option (Growth × NodeId)
  | ref label => (g.labels.lookup label).map (g, ·)
  | node label bare inputs nested => do
      let (g, inputs) ← addAll owner g inputs
      let (g, id) := g.add label (place bare owner inputs)
      let (g, nested) ← addNested id g nested
      let op := (g.plan.operator id).mapNested fun _ => nested
      return ({ g with plan := g.plan.setOperator id op }, id)

def addAll (owner : NodeId) (g : Growth) : List Tree → Option (Growth × List NodeId)
  | [] => some (g, [])
  | tree :: trees => do
      let (g, id) ← addTo owner g tree
      let (g, ids) ← addAll owner g trees
      return (g, id :: ids)

def addNested (owner : NodeId) (g : Growth) : List (List Tree) → Option (Growth × NestedPlans)
  | [] => some (g, [])
  | roots :: plans => do
      let (g, roots) ← addAll owner g roots
      let (g, plans) ← addNested owner g plans
      return (g, roots :: plans)
end

end Tree

end QueryOptimizer
