import QueryOptimizer.Session

/-! # Inference of types -/

namespace QueryOptimizer.Session

/-- The types of variables that get the values of expressions. -/
def assignedTypes (env : TypeEnv) (assignments : List (Var × Expr)) :
    Except Failure (List (Var × DataType)) :=
  assignments.mapM fun a => return (a.1, ← a.2.typeIn env)

/-- The type of the items of an unnested expression: a call that unnests has this type itself. -/
def itemType (env : TypeEnv) (e : Expr) : Except Failure DataType := do
  let type ← e.typeIn env
  if (e.function?.map (·.kind)) = some .unnest then return type
  else
    match type with
    | .list item => return item
    | other => throw (.notACollection "Unnest" other)

/-- The types of the variables that an operator adds. -/
def producedTypes (catalog : Catalog) (env : TypeEnv) : Operator →
    Except Failure (List (Var × DataType))
  | .scan source vars => do (← catalog.find source).columnTypes vars
  | .assign vars exprs | .aggregate vars exprs | .runningAggregate vars exprs =>
      assignedTypes env (vars.zip exprs)
  | .groupBy keys decor _ => assignedTypes env (keys ++ decor)
  | .unnest v e position => do
      let item ← itemType env e
      return (v, item) :: position.toList.map fun p => (p, .integer .int64)
  | .unionAll columns =>
      columns.mapM fun c =>
        match env.get? c.left with
        | some type => .ok (c.output, type)
        | none => .error (.untypedVariable c.left)
  | .script _ _ outputs => .ok (outputs.map fun v => (v, .utf8))
  | _ => .ok []

/-- Collects the types of some nodes into one environment. -/
def collectTypes (infer : Session → NodeId → Except Failure (Session × TypeEnv))
    (s : Session) (ids : List NodeId) : Except Failure (Session × TypeEnv) :=
  ids.foldlM (fun (s, env) id => do
    let (s, types) ← infer s id
    return (s, env.extend types)) (s, {})

/-- Infers the types of the variables of a node and of everything below it, unless that was done
    before. -/
def typesWithin : Nat → Session → NodeId → Except Failure (Session × TypeEnv)
  | 0, _, _ => .error .cyclicPlan
  | fuel + 1, s, id =>
      match s.context.types.get? id with
      | some env => .ok (s, env)
      | none => do
          let sources ← match s.plan.operator id with
            | .nestedSource owner => do pure [← s.plan.input owner 0]
            | _ => pure (s.plan.inputs id)
          let (s, env) ← collectTypes (typesWithin fuel) s sources
          let (s, nested) ← collectTypes (typesWithin fuel) s (s.plan.nestedRoots id)
          let produced ← producedTypes s.context.catalog env (s.plan.operator id)
          let env := (env.extend nested).insertAll produced
          return (s.mapContext (·.setTypes id env), env)

/-- The types of the variables of a node. -/
def types (s : Session) (id : NodeId) : Except Failure (Session × TypeEnv) :=
  typesWithin s.depth s id

end QueryOptimizer.Session
