import QueryOptimizer.Expr.Basic

/-! # Conjunctions

A condition is the conjunction of its conjuncts: calls of `and` are flattened, at any depth.
-/

namespace QueryOptimizer.Expr

mutual
/-- The conjuncts of a condition, nested calls of `and` flattened. -/
def conjuncts : Expr → List Expr
  | call .and args _ => conjunctsList args
  | e => [e]

def conjunctsList : List Expr → List Expr
  | [] => []
  | e :: es => conjuncts e ++ conjunctsList es
end

theorem conjuncts_call {f : Function} {args : List Expr} {hints : Hints} (other : f ≠ .and) :
    conjuncts (call f args hints) = [call f args hints] := by
  cases f <;> first | rfl | exact absurd rfl other

/-- The conjunction of the expressions: `true` of none, the expression itself of one. -/
def conjunction : List Expr → Expr
  | [] => const (.boolean true)
  | [e] => e
  | es => call .and es []

/-- The two sides of an equality of variables. -/
def variableEquality? : Expr → Option (Var × Var)
  | call .eq [var a, var b] _ => some (a, b)
  | _ => none

end QueryOptimizer.Expr
