import QueryOptimizer.Expr.Substitution
import QueryOptimizer.Operator.Basic

/-! # Variables of operators

The variables that an operator reads, those that it adds, and the schema of its result.
-/

namespace QueryOptimizer

/-- How the schema of an operator follows from the schemas of its inputs. -/
inductive Propagation where
  /-- The schema of the first input. -/
  | all
  /-- The schemas of the inputs and the variables that the operator adds. -/
  | addNew
  | custom
  deriving DecidableEq, Repr

def Propagation.text : Propagation → String
  | all => "All"
  | addNew => "AddNew"
  | custom => "Custom"

namespace Operator

/-- The number of inputs. -/
def arity : Operator → Nat
  | emptySource | nestedSource _ => 0
  | join .. | unionAll _ => 2
  | _ => 1

def propagation : Operator → Propagation
  | scan .. | assign .. | runningAggregate .. | unnest .. => .addNew
  | select _ | order .. | limit .. | exchange | replicate | write .. | insertDelete .. | sink => .all
  | _ => .custom

/-- The variables that get their values here. -/
def produced : Operator → List Var
  | scan _ vars => vars
  | assign vars _ | aggregate vars _ | runningAggregate vars _ => vars
  | groupBy keys decor _ => (keys ++ decor).map (·.1)
  | unnest v _ position => v :: position.toList
  | unionAll columns => columns.map (·.output)
  | script _ _ outputs => outputs
  | _ => []

def exprs : Operator → List Expr
  | select condition | join _ condition => [condition]
  | assign _ exprs | aggregate _ exprs | runningAggregate _ exprs | write _ exprs => exprs
  | groupBy keys decor _ => (keys ++ decor).map (·.2)
  | order columns _ => columns.map (·.2)
  | unnest _ e _ => [e]
  | insertDelete _ _ payload keys => payload :: keys
  | _ => []

/-- The variables that are read. -/
def used : Operator → List Var
  | project vars | distinct vars => vars
  | unionAll columns => QueryOptimizer.distinct (columns.flatMap fun c => [c.left, c.right])
  | script _ inputs _ => inputs
  | op => Expr.usedVarsOf op.exprs

def isRenamedBy (op : Operator) (renames : Renaming) : Bool :=
  op.used.any fun v => renames.apply v ≠ v

/-- Renames the variables that are read. A list of columns in which two get one name keeps the
    first. -/
def rename (renames : Renaming) (op : Operator) : Operator :=
  match op with
  | select condition => select (condition.rename renames)
  | assign vars exprs => assign vars (Expr.renameList renames exprs)
  | project vars =>
      if op.isRenamedBy renames then project (QueryOptimizer.distinct (vars.map renames.apply))
      else op
  | join kind condition => join kind (condition.rename renames)
  | groupBy keys decor nested => groupBy (pairs keys) (pairs decor) nested
  | aggregate vars exprs => aggregate vars (Expr.renameList renames exprs)
  | runningAggregate vars exprs => runningAggregate vars (Expr.renameList renames exprs)
  | distinct vars =>
      if op.isRenamedBy renames then distinct (QueryOptimizer.distinct (vars.map renames.apply))
      else op
  | order columns top => order (columns.map fun c => (c.1, c.2.rename renames)) top
  | unnest v e position => unnest v (e.rename renames) position
  | unionAll columns =>
      unionAll (columns.map fun c =>
        { c with left := renames.apply c.left, right := renames.apply c.right })
  | write target exprs => write target (Expr.renameList renames exprs)
  | insertDelete change dataset payload keys =>
      insertDelete change dataset (payload.rename renames) (Expr.renameList renames keys)
  | script command inputs outputs => script command (inputs.map renames.apply) outputs
  | op => op
where
  pairs (entries : List (Var × Expr)) : List (Var × Expr) :=
    entries.map fun entry => (entry.1, entry.2.rename renames)

/-- The variables of the result, given the schemas of the inputs and of the nested roots. -/
def schema (op : Operator) (inputs nested : List (List Var)) : List Var :=
  match op with
  | project vars | distinct vars => vars
  | join .. => inputs.flatten
  | groupBy .. => appendNew nested.flatten op.produced
  | subplan _ => appendNew inputs.flatten nested.flatten
  | op =>
      match op.propagation with
      | .all => inputs.headD []
      | .addNew => appendNew inputs.flatten op.produced
      | .custom => op.produced

/-- The variables that a group-by passes through, each with the variable of its input. -/
def groupColumns? : Operator → Option (List (Var × Var))
  | groupBy keys decor _ =>
      some ((keys ++ decor).filterMap fun entry => entry.2.asVar?.map (entry.1, ·))
  | _ => none

/-- The variables that a group-by gives its keys and its decorations. -/
def groupNames? : Operator → Option (List Var × List Var)
  | groupBy keys decor _ => some (keys.map (·.1), decor.map (·.1))
  | _ => none

/-- The columns of an order, if all of them are variables. -/
def orderColumns? : Operator → Option (List OrderColumn)
  | order columns _ => columns.mapM fun c => c.2.asVar?.map fun v => ⟨v, c.1⟩
  | _ => none

end Operator

end QueryOptimizer
