import QueryOptimizer.Session

/-! # Derivation of facts

The facts about the tuples of a node follow from its operator and the facts about its inputs.
-/

namespace QueryOptimizer

/-- Moves keys that the other keys determine behind the decorations: `kept` are the keys before
    those in the list that stay. One key always stays. Returns the keys and what was moved. -/
def Facts.splitKeys (facts : Facts) (kept : List (Var × Expr)) :
    List (Var × Expr) → List (Var × Expr) × List (Var × Expr)
  | [] => (kept, [])
  | key :: rest =>
      match key.2.asVar? with
      | none => splitKeys facts (kept ++ [key]) rest
      | some v =>
          let others := (kept ++ rest).filterMap fun other => other.2.asVar?
          if !(kept ++ rest).isEmpty && decide (v ∈ facts.closure others) then
            let (keys, moved) := splitKeys facts kept rest
            (keys, key :: moved)
          else splitKeys facts (kept ++ [key]) rest

/-- A left outer join keeps tuples without a partner, but tuples of the right side that are joined
    with equal tuples are equal: in each class of the condition, the left members determine the
    right ones. -/
def Facts.outerJoin (condition : Expr) (left right : List Var) : List Dependency :=
  (Facts.empty.assume condition).equivalence.classes.filterMap fun c =>
    let outer := c.members.filter fun v => decide (v ∈ left)
    let inner := c.members.filter fun v => decide (v ∈ right)
    if outer.isEmpty || inner.isEmpty then none else some ⟨outer, inner⟩

namespace Session

/-- The derived facts of a node. -/
def knownFacts (s : Session) (id : NodeId) : Except Failure Facts :=
  match s.context.facts.get? id with
  | some facts => .ok facts
  | none => .error .factsNotDerived

def inputFacts (s : Session) (id : NodeId) (index : Nat) : Except Failure Facts := do
  s.knownFacts (← s.plan.input id index)

/-- Adds that some variables determine others, if there are others. -/
def determining (facts : Facts) (head tail : List Var) : Facts :=
  if tail.isEmpty then facts else facts.addDependency (.ofLists head tail)

def joinFacts (s : Session) (id : NodeId) (kind : JoinKind) (condition : Expr) :
    Except Failure Facts := do
  let left ← s.inputFacts id 0
  let right ← s.inputFacts id 1
  let dependencies := left.dependencies ++ right.dependencies
  match kind with
  | .inner =>
      return Facts.assume ⟨left.equivalence.union right.equivalence, dependencies⟩ condition
  | .leftOuter =>
      let leftSchema ← s.plan.schema (← s.plan.input id 0)
      let rightSchema ← s.plan.schema (← s.plan.input id 1)
      return ⟨left.equivalence, dependencies ++ Facts.outerJoin condition leftSchema rightSchema⟩

/-- The variables of the result of a group-by that pass a variable of the input through. -/
def groupNames (columns : List (Var × Var)) (v : Var) : List Var :=
  (columns.filter fun c => c.2 = v).map (·.1)

/-- The facts about the result of a node, from the facts about its inputs. -/
def factsFromInputs (s : Session) (id : NodeId) : Except Failure Facts :=
  match s.plan.operator id with
  | .emptySource | .write .. | .insertDelete .. | .sink | .unionAll _ | .script .. => .ok .empty
  | .nestedSource owner => s.inputFacts owner 0
  | .scan source vars => do return ⟨{}, ← s.context.catalog.dependencies source vars⟩
  | .exchange | .order .. | .limit .. | .replicate | .runningAggregate .. | .unnest .. =>
      s.inputFacts id 0
  | .select condition => do return (← s.inputFacts id 0).assume condition
  | .join kind condition => s.joinFacts id kind condition
  | .assign vars exprs => do
      return (vars.zip exprs).foldl (fun facts a => facts.assign a.1 a.2) (← s.inputFacts id 0)
  | .project vars | .distinct vars => do return (← s.inputFacts id 0).restrict vars
  | .groupBy keys decor nested => do
      let columns := ((Operator.groupBy keys decor nested).groupColumns?).getD []
      let renamed := (← s.inputFacts id 0).rename (groupNames columns)
      let keyVars : List Var := keys.map (·.1)
      let schema ← s.plan.schema id
      let others := schema.filter fun v => decide (v ∉ keyVars)
      return determining renamed keyVars others
  | .aggregate vars _ => .ok ⟨{}, [.ofLists [] vars]⟩
  | .subplan _ => do
      let facts ← s.inputFacts id 0
      let live ← s.plan.schema (← s.plan.input id 0)
      let schema ← s.plan.schema id
      let others := schema.filter fun v => decide (v ∉ live)
      return determining facts live others

/-- Makes decorations of the keys of a group-by that other keys determine. -/
def simplifyGroupBy (s : Session) (id : NodeId) : Except Failure Session :=
  match s.plan.operator id with
  | .groupBy keys decor nested => do
      let facts ← s.inputFacts id 0
      match facts.splitKeys [] keys with
      | (_, []) => return s
      | (kept, moved) =>
          (s.withPlan (s.plan.setOperator id (.groupBy kept (decor ++ moved) nested))).refreshSchemas
  | _ => .ok s

/-- Derives the facts of a node and of everything that they follow from, unless that was done
    before. Group-bys are simplified on the way. -/
def ensureFactsWithin : Nat → Session → NodeId → Except Failure Session
  | 0, _, _ => .error .cyclicPlan
  | fuel + 1, s, id =>
      if (s.context.facts.get? id).isSome then .ok s
      else do
        let s ← (s.plan.inputs id).foldlM (ensureFactsWithin fuel) s
        let s ← match s.plan.operator id with
          | .nestedSource owner => do ensureFactsWithin fuel s (← s.plan.input owner 0)
          | _ => pure s
        let s ← s.simplifyGroupBy id
        let s ← (s.plan.nestedRoots id).foldlM (ensureFactsWithin fuel) s
        let facts ← s.factsFromInputs id
        return s.mapContext (·.setFacts id facts)

def ensureFacts (s : Session) (id : NodeId) : Except Failure Session :=
  ensureFactsWithin s.depth s id

/-- The facts about the tuples of a node. -/
def facts (s : Session) (id : NodeId) : Except Failure (Session × Facts) := do
  let s ← s.ensureFacts id
  return (s, ← s.knownFacts id)

/-- Whether the variables determine all tuples of a node. -/
def isKey (s : Session) (id : NodeId) (vs : List Var) : Except Failure (Session × Bool) := do
  let (s, facts) ← s.facts id
  return (s, facts.determines vs (← s.plan.schema id))

end Session

end QueryOptimizer
