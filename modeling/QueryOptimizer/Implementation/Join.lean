import QueryOptimizer.Derivation.Sizes

/-! # Choice of join algorithms -/

namespace QueryOptimizer

/-- The side of a join that a hint asks to broadcast. -/
inductive JoinSide where
  | left
  | right
  deriving DecidableEq, Repr

def JoinSide.ofHint? : String → Option JoinSide
  | "left" => some .left
  | "right" => some .right
  | _ => none

/-- The keys of a join on equal values. -/
structure JoinKeys where
  left : List Var
  right : List Var
  /-- The side that a conjunct asks to broadcast, the last one if there are several. -/
  broadcast : Option JoinSide := none
  deriving DecidableEq, Repr

namespace JoinKeys

/-- The variables of an equality, that of the left side first. -/
def orient? (left right : List Var) (equality : Var × Var) : Option (Var × Var) :=
  let (a, b) := equality
  if a ∈ left ∧ b ∈ right then some (a, b)
  else if b ∈ left ∧ a ∈ right then some (b, a)
  else none

/-- Adds the keys of a conjunct. -/
def addConjunct? (left right : List Var) (keys : JoinKeys) (conjunct : Expr) :
    Option JoinKeys := do
  let (l, r) ← orient? left right (← conjunct.variableEquality?)
  let hint := (conjunct.hint? "broadcast").bind JoinSide.ofHint?
  return ⟨keys.left ++ [l], keys.right ++ [r], hint.or keys.broadcast⟩

/-- The keys of a condition, if each conjunct is an equality of a variable of the left side and
    one of the right side, and there is at least one. -/
def ofCondition? (condition : Expr) (left right : List Var) : Option JoinKeys :=
  match condition.conjuncts with
  | [] => none
  | conjuncts => conjuncts.foldlM (addConjunct? left right) ⟨[], [], none⟩

end JoinKeys

namespace Session

/-- Chooses the algorithm of a join. A left side that is to be broadcast becomes the right one,
    which is only possible for an inner join. -/
def chooseJoin (s : Session) (id : NodeId) : Except Failure (Session × Physical) :=
  match s.plan.operator id with
  | .join kind condition => do
      let left ← s.plan.input id 0
      let right ← s.plan.input id 1
      match JoinKeys.ofCondition? condition (← s.plan.schema left) (← s.plan.schema right) with
      | none => return (s, .nestedLoopJoin kind)
      | some keys =>
          let nodeHint := ((s.plan.node id).hints.get? "broadcast-side").bind JoinSide.ofHint?
          let (plan, join) ← match keys.broadcast.or nodeHint, kind with
            | some .right, _ =>
                pure (s.plan, HashJoin.mk kind .broadcast keys.left keys.right)
            | some .left, .inner => do
                pure (← s.plan.swapInputs id 0 1, HashJoin.mk kind .broadcast keys.right keys.left)
            | _, _ => pure (s.plan, HashJoin.mk kind .pairwise keys.left keys.right)
          let (s, frames) ← (s.withPlan plan).frames? (← plan.input id 1)
          if (frames.map s.context.config.memory.fitsJoin).getD false then
            return (s, .inMemoryHashJoin join)
          else return (s, .hybridHashJoin join)
  | op => .error (.notAJoin op.name)

end Session

end QueryOptimizer
