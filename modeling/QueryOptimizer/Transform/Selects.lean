import QueryOptimizer.Plan.Schema

/-! # Transformations of selects

Each of them looks at the node in a slot. It returns the new plan, or nothing if it does not
apply.
-/

namespace QueryOptimizer.Plan

/-- Adds a node over one input that runs in the given mode. -/
def addOver (plan : Plan) (operator : Operator) (input : NodeId) (mode : Mode) : Plan × NodeId :=
  plan.addNode { Node.above operator [input] with mode := mode }

/-- Adds a chain of selects over an input, one for each condition, the first on top. -/
def addSelects (plan : Plan) (mode : Mode) (input : NodeId) : List Expr → Plan × NodeId
  | [] => (plan, input)
  | condition :: rest =>
      let (plan, below) := addSelects plan mode input rest
      plan.addOver (.select condition) below mode

/-- Splits a select with several conjuncts into a chain of selects. The first conjunct stays at the
    node. -/
def splitSelect (plan : Plan) (slot : Slot) : Except Failure (Option Plan) := do
  let id ← plan.nodeAt slot
  match plan.operator id with
  | .select condition =>
      match condition.conjuncts with
      | top :: next :: rest =>
          let input ← plan.input id 0
          let (plan, below) := plan.addSelects (plan.mode id) input (next :: rest)
          return some ((plan.setOperator id (.select top)).setInput id 0 below)
      | _ => return none
  | _ => return none

/-- The condition and the input of a select that may be moved: its condition has to be
    deterministic, and no other node may share its input. -/
def movableSelect (plan : Plan) (id : NodeId) : Except Failure (Option (Expr × NodeId)) :=
  match plan.operator id with
  | .select condition =>
      if condition.isDeterministic then do
        let child ← plan.input id 0
        return if plan.isShared child then none else some (condition, child)
      else return none
  | _ => return none

/-- Exchanges a node with its input: the node goes below, the input into the slot. -/
def swapWithInput (plan : Plan) (slot : Slot) (id child : NodeId) : Except Failure Plan := do
  let below ← plan.input child 0
  ((plan.setInput id 0 below).setInput child 0 id).setSlot slot child

/-- Puts a select on the first of the given inputs of a join that provides all variables. The
    join goes into the slot. -/
def selectJoinInput (plan : Plan) (slot : Slot) (join : NodeId) (condition : Expr) :
    List Nat → Except Failure (Option Plan)
  | [] => .ok none
  | side :: sides => do
      let input ← plan.input join side
      let schema ← plan.schema input
      if condition.usedVars.all fun v => decide (v ∈ schema) then
        let (plan, select) := plan.add (.select condition) [input]
        return some (← (plan.setInput join side select).setSlot slot join)
      else selectJoinInput plan slot join condition sides

/-- Moves a select below its input. An outer join only lets selects on the left pass. -/
def pushSelect (plan : Plan) (slot : Slot) : Except Failure (Option Plan) := do
  let id ← plan.nodeAt slot
  match ← plan.movableSelect id with
  | none => return none
  | some (condition, child) =>
      match plan.operator child with
      | .project _ | .order _ none | .exchange => return some (← plan.swapWithInput slot id child)
      | .assign vars _ =>
          if condition.usedVars.any fun v => decide (v ∈ vars) then return none
          else return some (← plan.swapWithInput slot id child)
      | .join .inner _ => plan.selectJoinInput slot child condition [0, 1]
      | .join .leftOuter _ => plan.selectJoinInput slot child condition [0]
      | _ => return none

/-- Makes a select over both sides of an inner join a part of the join's condition. -/
def mergeSelectIntoJoin (plan : Plan) (slot : Slot) : Except Failure (Option Plan) := do
  let id ← plan.nodeAt slot
  match ← plan.movableSelect id with
  | none => return none
  | some (condition, join) =>
      match plan.operator join with
      | .join .inner joinCondition =>
          let left ← plan.schema (← plan.input join 0)
          let right ← plan.schema (← plan.input join 1)
          let used := condition.usedVars
          if (used.all fun v => decide (v ∈ left)) || (used.all fun v => decide (v ∈ right)) then
            return none
          else
            let conjuncts := (joinCondition.conjuncts ++ condition.conjuncts).filter (!·.isTrue)
            let merged := plan.setOperator join (.join .inner (.conjunction conjuncts))
            return some (← merged.setSlot slot join)
      | _ => return none

/-- Merges a select with a select below it, whose conjuncts follow. -/
def mergeSelects (plan : Plan) (slot : Slot) : Except Failure (Option Plan) := do
  let outer ← plan.nodeAt slot
  let inner ← plan.input outer 0
  match plan.operator outer, plan.operator inner with
  | .select condition, .select innerCondition =>
      let input ← plan.input inner 0
      let merged := Expr.conjunction (condition.conjuncts ++ innerCondition.conjuncts)
      return some ((plan.setOperator outer (.select merged)).setInput outer 0 input)
  | _, _ => return none

end QueryOptimizer.Plan
