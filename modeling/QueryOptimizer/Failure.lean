import QueryOptimizer.DataType
import QueryOptimizer.Variable

/-! # Failures

Why an optimization gives up. A rule whose preconditions do not hold is no failure.
-/

namespace QueryOptimizer

/-- The kinds of failures that a plan or a catalog can cause. -/
inductive FailureKind where
  /-- An operator does not have the shape it must have. -/
  | malformed
  /-- A shape that is not handled. -/
  | unsupported
  /-- The optimizer met a state that it does not expect. -/
  | internal
  /-- A computation that has no result: a number beyond its range, a position or a node that
      does not exist, a plan that contains itself. -/
  | undefined
  deriving DecidableEq, Repr

def FailureKind.text : FailureKind → String
  | malformed => "MalformedPlan"
  | unsupported => "Unsupported"
  | internal => "Internal"
  | undefined => "Undefined"

/-- The causes of failures. Operators are given by name or as text. -/
inductive Failure where
  | missingArgument (function : String) (index : Nat)
  | unknownSource (source : String)
  | boundColumns (source : String) (bound columns : Nat)
  | unknownKeyColumn (source column : String)
  | nothingToBuildUpon (operator : String)
  | notAVariable (operator expression : String)
  | notACollection (operator : String) (type : DataType)
  | orderByExpression
  | hashOnNoColumns
  | untypedVariable (v : Var)
  | factsNotDerived
  | uncoordinatedColumn (column : Var) (keys : List Var)
  | noInput (operator : String) (index : Nat)
  | noNestedRoot (operator : String) (plan index : Nat)
  | schemaNotComputed (operator : String)
  | nothingToDetach
  | outOfScope (operator : String) (v : Var)
  | notImplemented (operator : String)
  | notPipelined (physical : String)
  | notAJoin (operator : String)
  | deliveryNotDerived (operator : String)
  | ownerNotDerived
  | sortRemovalCascade (steps : Nat)
  | singlePartitionExchange
  | noFixpoint (batch : String) (sweeps : Nat)
  /-- A number beyond its range. -/
  | overflow
  /-- A position past the end of a list of keys. -/
  | keyOutOfRange
  /-- A node that was removed from the plan. -/
  | noSuchNode
  /-- A plan that contains itself. -/
  | cyclicPlan
  deriving DecidableEq, Repr

namespace Failure

def kind : Failure → FailureKind
  | missingArgument .. | unknownSource _ | boundColumns .. | unknownKeyColumn ..
  | nothingToBuildUpon _ | notAVariable .. => .malformed
  | notACollection .. | orderByExpression | hashOnNoColumns => .unsupported
  | overflow | keyOutOfRange | noSuchNode | cyclicPlan => .undefined
  | _ => .internal

/-- The operator or function at which a plan is malformed or not supported. -/
def site : Failure → String
  | missingArgument function _ => function
  | unknownSource _ | boundColumns .. | unknownKeyColumn .. => "DataSourceScan"
  | nothingToBuildUpon operator => operator
  | notAVariable operator _ => operator
  | notACollection operator _ => operator
  | orderByExpression => "Order"
  | hashOnNoColumns => "Exchange"
  | _ => ""

/-- A list of variables as it is shown in a report about keys. -/
def keysText (keys : List Var) : String :=
  Text.bracketed (keys.map fun key => "LogicalVariable(" ++ Nat.repr key ++ ")")

/-- What happened. -/
def reason : Failure → String
  | missingArgument _ index => "missing argument " ++ Nat.repr index
  | unknownSource source => "unknown data source " ++ source
  | boundColumns source bound columns =>
      Nat.repr bound ++ " variables bound to data source " ++ source ++ " with "
        ++ Nat.repr columns ++ " columns"
  | unknownKeyColumn source column => "primary key " ++ column ++ " is not a column of " ++ source
  | nothingToBuildUpon _ => "operator has no input to build upon"
  | notAVariable _ expression => expression ++ " is not a variable reference"
  | notACollection _ type => "cannot unnest a value of type " ++ type.text
  | orderByExpression => "ordering by an expression that is not a variable"
  | hashOnNoColumns => "hash partitioning on no columns"
  | untypedVariable v => "Variable " ++ v.text ++ " has no type in scope"
  | factsNotDerived => "Functional dependencies of an input are not derived"
  | uncoordinatedColumn column keys =>
      "Could not coordinate partitioning column " ++ column.text ++ " with keys " ++ keysText keys
  | noInput operator index => operator ++ " has no input " ++ Nat.repr index
  | noNestedRoot operator plan index =>
      operator ++ " has no nested root " ++ Nat.repr plan ++ "." ++ Nat.repr index
  | schemaNotComputed operator => "Schema of " ++ operator ++ " is not computed"
  | nothingToDetach => "Plan builder has no root to detach"
  | outOfScope operator v => operator ++ " uses " ++ v.text ++ " which is not produced by its inputs"
  | notImplemented operator => operator ++ " has no physical operator"
  | notPipelined physical => physical ++ " cannot run inside a nested plan"
  | notAJoin operator => "Join strategy requested for " ++ operator
  | deliveryNotDerived operator => "Delivered properties of " ++ operator ++ " are not derived"
  | ownerNotDerived => "Nested tuple source derived before the input of its owner"
  | sortRemovalCascade steps =>
      "Redundant order removal did not terminate after " ++ Nat.repr steps ++ " steps"
  | singlePartitionExchange => "Partitioning exchange requested for a single partition"
  | noFixpoint batch sweeps =>
      "Rule batch " ++ batch ++ " did not reach a fixpoint after " ++ Nat.repr sweeps ++ " sweeps"
  | overflow => "a number is beyond its range"
  | keyOutOfRange => "a position is past the end of a list of keys"
  | noSuchNode => "a node is not in the plan"
  | cyclicPlan => "the plan contains itself"

/-- The report of a failure. -/
def message (failure : Failure) : String :=
  match failure.kind with
  | .malformed => "malformed plan at " ++ failure.site ++ ": " ++ failure.reason
  | .unsupported => "unsupported construct at " ++ failure.site ++ ": " ++ failure.reason
  | .internal => "internal optimizer error: " ++ failure.reason
  | .undefined => failure.reason

end Failure

end QueryOptimizer
