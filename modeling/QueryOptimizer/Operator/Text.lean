import QueryOptimizer.Operator.Basic
import QueryOptimizer.Text.Quoted

/-! # Text of operators -/

namespace QueryOptimizer.Operator

/-- Assignments between commas. A variable without an expression, or an expression without a
    variable, is left out. -/
def assignments (vars : List Var) (exprs : List Expr) : String :=
  Text.bracketed ((vars.zip exprs).map fun entry => Var.text entry.1 ++ " := " ++ entry.2.text)

/-- The fields that are shown behind the name. -/
def fields : Operator → List (String × String)
  | scan source vars => [("data_source", Text.quoted source), ("variables", varsText vars)]
  | select condition => [("condition", condition.text)]
  | assign vars exprs => [("assignments", assignments vars exprs)]
  | project vars => [("variables", varsText vars)]
  | join kind condition => [("kind", kind.text), ("condition", condition.text)]
  | groupBy keys decor _ =>
      ("group_by", pairs keys) :: (if decor.isEmpty then [] else [("decor", pairs decor)])
  | aggregate vars exprs | runningAggregate vars exprs => [("aggregates", assignments vars exprs)]
  | distinct vars => [("variables", varsText vars)]
  | order columns top =>
      ("order", Text.bracketed (columns.map fun c => c.2.text ++ " " ++ c.1.text))
        :: top.toList.map fun k => ("top_k", Nat.repr k)
  | limit count offset =>
      ("limit", Nat.repr count) :: offset.toList.map fun n => ("offset", Nat.repr n)
  | unnest v e _ => [("variable", Var.text v), ("expression", e.text)]
  | unionAll columns =>
      [("mappings", Text.bracketed (columns.map fun c =>
        Var.text c.output ++ " := (" ++ Var.text c.left ++ ", " ++ Var.text c.right ++ ")"))]
  | write target exprs =>
      [("sink", Text.quoted target), ("expressions", Text.bracketed (exprs.map (·.text)))]
  | insertDelete change dataset _ _ => [("kind", change.text), ("dataset", Text.quoted dataset)]
  | script command inputs outputs =>
      [("command", Text.quoted command), ("inputs", varsText inputs), ("outputs", varsText outputs)]
  | _ => []
where
  pairs (entries : List (Var × Expr)) : String :=
    assignments (entries.map (·.1)) (entries.map (·.2))

/-- An operator as text: its name and fields. -/
def text (op : Operator) : String := Text.record op.name op.fields

end QueryOptimizer.Operator
