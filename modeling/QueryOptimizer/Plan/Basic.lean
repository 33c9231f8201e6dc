import QueryOptimizer.Failure
import QueryOptimizer.Operator.Schema
import QueryOptimizer.Physical.Basic

/-! # Plans

A plan is a graph of nodes with a root. Nodes are numbered; a number that became vacant is given
to the node that is added next. A node may be the input of several others.
-/

namespace QueryOptimizer

/-- A node of a plan. -/
structure Node where
  operator : Operator
  /-- The inputs by position, in ascending order of the positions. -/
  inputs : List (Nat × NodeId) := []
  mode : Mode := .unpartitioned
  physical : Option Physical := none
  hints : Hints := []
  /-- The variables of the result, if they were computed. -/
  schema : Option (List Var) := none
  deriving DecidableEq

namespace Node

instance : Inhabited Node := ⟨{ operator := .emptySource }⟩

/-- A node without properties over the given inputs. -/
def above (operator : Operator) (inputs : List NodeId) : Node :=
  { operator := operator, inputs := (List.range inputs.length).zip inputs }

/-- Puts a node at a position in an ascending list, replacing the one that is there. -/
def insertInput (position : Nat) (input : NodeId) : List (Nat × NodeId) → List (Nat × NodeId)
  | [] => [(position, input)]
  | (p, i) :: rest =>
      if position < p then (position, input) :: (p, i) :: rest
      else if position = p then (position, input) :: rest
      else (p, i) :: insertInput position input rest

def setInput (node : Node) (position : Nat) (input : NodeId) : Node :=
  { node with inputs := insertInput position input node.inputs, schema := none }

/-- Replaces the operator. The schema has to be computed again. -/
def setOperator (node : Node) (operator : Operator) : Node :=
  { node with operator := operator, schema := none }

end Node

/-- A place that holds a node. -/
inductive Slot where
  | root
  | input (parent : NodeId) (index : Nat)
  | nestedRoot (owner : NodeId) (plan index : Nat)
  deriving DecidableEq, Repr

/-- A graph of nodes. -/
structure Plan where
  nodes : List (Option Node) := []
  root : NodeId := 0
  /-- The numbers without a node, the one that is given next first. -/
  vacant : List NodeId := []

namespace Plan

instance : Inhabited Plan := ⟨{}⟩

def node? (plan : Plan) (id : NodeId) : Option Node := plan.nodes[id]?.join

def contains (plan : Plan) (id : NodeId) : Bool := (plan.node? id).isSome

/-- The node of that number. There is one wherever a slot of the plan leads. -/
def node (plan : Plan) (id : NodeId) : Node := (plan.node? id).getD default

def operator (plan : Plan) (id : NodeId) : Operator := (plan.node id).operator

def mode (plan : Plan) (id : NodeId) : Mode := (plan.node id).mode

/-- The numbers of all nodes, in ascending order. -/
def ids (plan : Plan) : List NodeId :=
  (List.range plan.nodes.length).filter plan.contains

/-- The number of nodes. -/
def size (plan : Plan) : Nat := plan.ids.length

/-- Changes a node. -/
def modify (plan : Plan) (id : NodeId) (f : Node → Node) : Plan :=
  { plan with nodes := plan.nodes.modify id (·.map f) }

def setOperator (plan : Plan) (id : NodeId) (operator : Operator) : Plan :=
  plan.modify id (·.setOperator operator)

/-- Puts another operator into a node. Nested plans and the owner of a nested source stay. -/
def replaceOperator (plan : Plan) (id : NodeId) (operator : Operator) : Plan :=
  let old := plan.operator id
  let owner := match old with
    | .nestedSource owner => owner
    | _ => id
  plan.setOperator id ((operator.mapNested fun _ => old.nested).ownedBy owner)

def setMode (plan : Plan) (id : NodeId) (mode : Mode) : Plan :=
  plan.modify id fun node => { node with mode := mode }

def setPhysical (plan : Plan) (id : NodeId) (physical : Physical) : Plan :=
  plan.modify id fun node => { node with physical := some physical }

def setHint (plan : Plan) (id : NodeId) (key value : String) : Plan :=
  plan.modify id fun node => { node with hints := node.hints.insert key value }

/-- Adds a node and returns its number. -/
def addNode (plan : Plan) (node : Node) : Plan × NodeId :=
  match plan.vacant with
  | id :: vacant => ({ plan with nodes := plan.nodes.set id (some node), vacant := vacant }, id)
  | [] => ({ plan with nodes := plan.nodes ++ [some node] }, plan.nodes.length)

def add (plan : Plan) (operator : Operator) (inputs : List NodeId) : Plan × NodeId :=
  plan.addNode (.above operator inputs)

/-- Removes a node together with the edges from and to it. -/
def remove (plan : Plan) (id : NodeId) : Plan :=
  { plan with
    nodes := (plan.nodes.set id none).map fun node =>
      node.map fun n => { n with inputs := n.inputs.filter fun edge => edge.2 ≠ id },
    vacant := id :: plan.vacant }

/-- The inputs of a node, in order. -/
def inputs (plan : Plan) (id : NodeId) : List NodeId := (plan.node id).inputs.map (·.2)

/-- The name of the operator of a node. -/
def operatorName (plan : Plan) (id : NodeId) : Except Failure String :=
  match plan.node? id with
  | some node => .ok node.operator.name
  | none => .error .noSuchNode

def input (plan : Plan) (id : NodeId) (index : Nat) : Except Failure NodeId :=
  match (plan.inputs id)[index]? with
  | some input => .ok input
  | none => do throw (.noInput (← plan.operatorName id) index)

def setInput (plan : Plan) (id : NodeId) (position : Nat) (input : NodeId) : Plan :=
  plan.modify id (·.setInput position input)

def swapInputs (plan : Plan) (id : NodeId) (left right : Nat) : Except Failure Plan := do
  let leftInput ← plan.input id left
  let rightInput ← plan.input id right
  return (plan.setInput id left rightInput).setInput id right leftInput

/-- The nodes that have the node as an input. -/
def parents (plan : Plan) (id : NodeId) : List NodeId :=
  plan.ids.filter fun parent => decide (id ∈ plan.inputs parent)

/-- Whether more than one node has the node as an input. -/
def isShared (plan : Plan) (id : NodeId) : Bool := 1 < (plan.parents id).length

def nestedRoots (plan : Plan) (id : NodeId) : List NodeId := (plan.operator id).nested.flatten

/-- The inputs and the roots of nested plans. -/
def children (plan : Plan) (id : NodeId) : List NodeId := plan.inputs id ++ plan.nestedRoots id

def inputSlots (plan : Plan) (id : NodeId) : List Slot :=
  (List.range (plan.inputs id).length).map fun index => .input id index

def nestedSlots (plan : Plan) (id : NodeId) : List Slot :=
  (plan.operator id).nested.zipIdx.flatMap fun (roots, p) =>
    (List.range roots.length).map fun index => .nestedRoot id p index

/-- The slots that hold the children of a node. -/
def childSlots (plan : Plan) (id : NodeId) : List Slot :=
  plan.inputSlots id ++ plan.nestedSlots id

def nodeAt (plan : Plan) : Slot → Except Failure NodeId
  | .root => .ok plan.root
  | .input parent index => plan.input parent index
  | .nestedRoot owner p index =>
      match ((plan.operator owner).nested[p]?).bind (·[index]?) with
      | some root => .ok root
      | none => do throw (.noNestedRoot (← plan.operatorName owner) p index)

/-- Puts a node into a slot. -/
def setSlot (plan : Plan) (slot : Slot) (id : NodeId) : Except Failure Plan :=
  match slot with
  | .root => .ok { plan with root := id }
  | .input parent index => .ok (plan.setInput parent index id)
  | .nestedRoot owner p index =>
      match ((plan.operator owner).nested[p]?).bind (·[index]?) with
      | some _ =>
          let replaced := (plan.operator owner).mapNested fun nested =>
            nested.modify p fun roots => roots.set index id
          .ok (plan.setOperator owner replaced)
      | none => do throw (.noNestedRoot (← plan.operatorName owner) p index)

/-- The largest variable that occurs in a node. -/
def maxVariable? (plan : Plan) : Option Var :=
  (plan.ids.flatMap fun id => (plan.operator id).produced ++ (plan.operator id).used).max?

end Plan

end QueryOptimizer
