import QueryOptimizer.Derivation.Facts

/-! # Inlining of variables

A variable that is assigned from another one is replaced, where it is read, by an equivalent
variable that is not.
-/

namespace QueryOptimizer

/-- The variables that are assigned from other variables and need not be kept. -/
def Session.inlineable (s : Session) : VarSet :=
  .ofList <| s.plan.reachable.flatMap fun id =>
    match s.plan.operator id with
    | .assign vars exprs =>
        (vars.zip exprs).filterMap fun a =>
          match a.2 with
          | .var source => if source ≠ a.1 && decide (a.1 ∉ s.context.kept) then some a.1 else none
          | _ => none
    | _ => []

namespace Session

/-- What replaces a variable: the smallest equivalent one that is visible and stays. -/
def replacement? (facts : Facts) (inlineable : VarSet) (visible : List Var) (v : Var) :
    Option Var :=
  (facts.equivalence.membersOf v).toList.find? fun member =>
    member ≠ v && decide (member ∈ visible) && decide (member ∉ inlineable)

/-- Adds the replacements of variables that an input provides. -/
def inputRenames (inlineable : VarSet) (used : List Var) (acc : Session × Renaming)
    (input : NodeId) : Except Failure (Session × Renaming) := do
  let (s, renames) := acc
  let visible ← s.plan.schema input
  let pending := used.filter fun v =>
    decide (v ∈ inlineable) && decide (v ∈ visible) && (renames.find? v).isNone
  if pending.isEmpty then return (s, renames)
  else
    let (s, facts) ← s.facts input
    let found := pending.filterMap fun v =>
      (replacement? facts inlineable visible v).map (v, ·)
    return (s, renames ++ found)

/-- Replaces the variables that the node in a slot reads. -/
def inlineAt (s : Session) (inlineable : VarSet) (slot : Slot) :
    Except Failure (Session × Bool) :=
  if inlineable.isEmpty then .ok (s, false)
  else do
    let id ← s.plan.nodeAt slot
    let used := (s.plan.operator id).used
    if !used.any fun v => decide (v ∈ inlineable) then return (s, false)
    else
      let (s, renames) ← (s.plan.inputs id).foldlM (inputRenames inlineable used) (s, [])
      let op := s.plan.operator id
      if op.isRenamedBy renames then
        return (s.withPlan (s.plan.setOperator id (op.rename renames)), true)
      else return (s, false)

end Session

end QueryOptimizer
