import QueryOptimizer.Expr.Conjunction
import QueryOptimizer.Layout.Local

/-! # Logical operators

An operator says what a node of a plan computes from its inputs. Two operators hold nested plans:
a group-by runs them once for each group, a subplan once for each tuple.
-/

namespace QueryOptimizer

/-- The number of a node in a plan. -/
abbrev NodeId := Nat

inductive JoinKind where
  | inner
  | leftOuter
  deriving DecidableEq, Repr

def JoinKind.text : JoinKind → String
  | inner => "Inner"
  | leftOuter => "LeftOuter"

inductive ChangeKind where
  | insert
  | delete
  deriving DecidableEq, Repr

def ChangeKind.text : ChangeKind → String
  | insert => "Insert"
  | delete => "Delete"

/-- A column of a union: one variable of each input, and the variable of the result. -/
structure UnionColumn where
  left : Var
  right : Var
  output : Var
  deriving DecidableEq, Repr

/-- The roots of each nested plan. -/
abbrev NestedPlans := List (List NodeId)

/-- What a node of a plan computes. -/
inductive Operator where
  /-- One tuple without variables. -/
  | emptySource
  /-- The tuples that a nested plan is run on: those of the input of its owner. -/
  | nestedSource (owner : NodeId)
  | scan (source : String) (vars : List Var)
  | select (condition : Expr)
  | assign (vars : List Var) (exprs : List Expr)
  | project (vars : List Var)
  | join (kind : JoinKind) (condition : Expr)
  /-- Groups by the keys. A decoration has one value in each group. -/
  | groupBy (keys decor : List (Var × Expr)) (nested : NestedPlans)
  | aggregate (vars : List Var) (exprs : List Expr)
  | runningAggregate (vars : List Var) (exprs : List Expr)
  | distinct (vars : List Var)
  /-- Sorts, and keeps the first `top` tuples if that is given. -/
  | order (columns : List (Direction × Expr)) (top : Option Nat)
  | limit (count : Nat) (offset : Option Nat)
  | unnest (v : Var) (e : Expr) (position : Option Var)
  | subplan (nested : NestedPlans)
  | exchange
  | replicate
  | unionAll (columns : List UnionColumn)
  | write (sink : String) (exprs : List Expr)
  | insertDelete (change : ChangeKind) (dataset : String) (payload : Expr) (keys : List Expr)
  | sink
  | script (command : String) (inputs outputs : List Var)
  deriving DecidableEq

/-- The kinds of operators. -/
inductive OperatorKind where
  | emptySource
  | nestedSource
  | scan
  | select
  | assign
  | project
  | join
  | groupBy
  | aggregate
  | runningAggregate
  | distinct
  | order
  | limit
  | unnest
  | subplan
  | exchange
  | replicate
  | unionAll
  | write
  | insertDelete
  | sink
  | script
  deriving DecidableEq, Repr

namespace OperatorKind

def name : OperatorKind → String
  | emptySource => "EmptyTupleSource"
  | nestedSource => "NestedTupleSource"
  | scan => "DataSourceScan"
  | select => "Select"
  | assign => "Assign"
  | project => "Project"
  | join => "Join"
  | groupBy => "GroupBy"
  | aggregate => "Aggregate"
  | runningAggregate => "RunningAggregate"
  | distinct => "Distinct"
  | order => "Order"
  | limit => "Limit"
  | unnest => "Unnest"
  | subplan => "Subplan"
  | exchange => "Exchange"
  | replicate => "Replicate"
  | unionAll => "UnionAll"
  | write => "Write"
  | insertDelete => "InsertDelete"
  | sink => "Sink"
  | script => "Script"

end OperatorKind

namespace Operator

instance : Inhabited Operator := ⟨emptySource⟩

def kind : Operator → OperatorKind
  | emptySource => .emptySource
  | nestedSource _ => .nestedSource
  | scan .. => .scan
  | select _ => .select
  | assign .. => .assign
  | project _ => .project
  | join .. => .join
  | groupBy .. => .groupBy
  | aggregate .. => .aggregate
  | runningAggregate .. => .runningAggregate
  | distinct _ => .distinct
  | order .. => .order
  | limit .. => .limit
  | unnest .. => .unnest
  | subplan _ => .subplan
  | exchange => .exchange
  | replicate => .replicate
  | unionAll _ => .unionAll
  | write .. => .write
  | insertDelete .. => .insertDelete
  | sink => .sink
  | script .. => .script

def name (op : Operator) : String := op.kind.name

/-- The roots of the nested plans. -/
def nested : Operator → NestedPlans
  | groupBy _ _ nested | subplan nested => nested
  | _ => []

/-- Changes the nested plans of the operators that can have some. -/
def mapNested (f : NestedPlans → NestedPlans) : Operator → Operator
  | groupBy keys decor nested => groupBy keys decor (f nested)
  | subplan nested => subplan (f nested)
  | op => op

/-- Changes the owner of a nested source. -/
def ownedBy (owner : NodeId) : Operator → Operator
  | nestedSource _ => nestedSource owner
  | op => op

end Operator

end QueryOptimizer
