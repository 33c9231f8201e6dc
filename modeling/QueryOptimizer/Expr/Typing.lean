import QueryOptimizer.Expr.Basic
import QueryOptimizer.Failure

/-! # Types of expressions -/

namespace QueryOptimizer

/-- The types of the variables visible at one point of a plan, ascending by variable. -/
structure TypeEnv where
  entries : List (Var × DataType) := []
  deriving DecidableEq, Repr

namespace TypeEnv

def get? (env : TypeEnv) (v : Var) : Option DataType := env.entries.lookup v

/-- Puts an entry in its place, replacing an entry of the same variable. -/
def insertEntry (v : Var) (type : DataType) : List (Var × DataType) → List (Var × DataType)
  | [] => [(v, type)]
  | (w, t) :: rest =>
      if v < w then (v, type) :: (w, t) :: rest
      else if v = w then (v, type) :: rest
      else (w, t) :: insertEntry v type rest

def insert (env : TypeEnv) (v : Var) (type : DataType) : TypeEnv :=
  ⟨insertEntry v type env.entries⟩

def insertAll (env : TypeEnv) (entries : List (Var × DataType)) : TypeEnv :=
  entries.foldl (fun env entry => env.insert entry.1 entry.2) env

/-- Adds the types of another environment, which win over the ones at hand. -/
def extend (env other : TypeEnv) : TypeEnv := env.insertAll other.entries

def size (env : TypeEnv) : Nat := env.entries.length

end TypeEnv

namespace Expr

/-- How the type of a call follows from the type of its first argument. -/
inductive ResultType where
  | fixed (type : DataType)
  /-- The type of the first argument. -/
  | ofArgument
  /-- Lists of the first argument. -/
  | listOfArgument
  /-- The items of the first argument, which is a list. -/
  | itemOfArgument

/-- The result types of the functions. The arguments of a comparison are not looked at. -/
def resultType : Function → ResultType
  | .eq | .neq | .lt | .le | .gt | .ge | .and | .or | .not | .isNull => .fixed .boolean
  | .plus | .minus | .multiply | .divide | .sum | .min | .max => .ofArgument
  | .random | .avg => .fixed .float64
  | .count | .range => .fixed (.integer .int64)
  | .listify => .listOfArgument
  | .scanCollection => .itemOfArgument

/-- The type of an expression over typed variables. -/
def typeIn (env : TypeEnv) : Expr → Except Failure DataType
  | const value => .ok value.type
  | var v =>
      match env.get? v with
      | some type => .ok type
      | none => .error (.untypedVariable v)
  | call f args _ =>
      match resultType f, args with
      | .fixed type, _ => .ok type
      | .ofArgument, e :: _ => typeIn env e
      | .listOfArgument, e :: _ => do
          let type ← typeIn env e
          return .list type
      | .itemOfArgument, e :: _ => do
          match ← typeIn env e with
          | .list item => return item
          | other => throw (.notACollection f.name other)
      | _, [] => .error (.missingArgument f.name 0)

end Expr

end QueryOptimizer
