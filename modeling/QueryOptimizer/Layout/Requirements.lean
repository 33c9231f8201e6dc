import QueryOptimizer.Failure
import QueryOptimizer.Layout.Basic

/-! # Requirements on the inputs of an operator -/

namespace QueryOptimizer

/-- Whether the layouts of the two inputs of an operator depend on each other. -/
inductive Coordination where
  | independent
  /-- Tuples that agree on paired keys must meet: the second input is partitioned like the
      first. -/
  | onKeys (left right : List Var)
  deriving DecidableEq, Repr

/-- The layouts that an operator requires from its inputs. -/
structure Requirements where
  layouts : List (Option Layout)
  coordination : Coordination := .independent
  deriving DecidableEq

namespace Requirements

/-- No requirements on some number of inputs. -/
def free (inputs : Nat) : Requirements := { layouts := List.replicate inputs none }

end Requirements

namespace Coordination

/-- The keys that are paired. -/
def keys? : Coordination → Option (List Var × List Var)
  | independent => none
  | onKeys left right => some (left, right)

/-- The position of the first key that stands for a partitioning column. -/
def keyPosition? (facts : Facts) (keys : List Var) (column : Var) : Option Nat :=
  keys.findIdx? fun key =>
    key = column || facts.equivalence.areEquivalent key column
      || (facts.determines [key] [column] && facts.determines [column] [key])

/-- The partner of a partitioning column among the keys of the other side. -/
def partner (facts : Facts) (left right : List Var) (column : Var) : Except Failure Var :=
  match keyPosition? facts left column with
  | some i =>
      match right[i]? with
      | some key => .ok key
      | none => .error .keyOutOfRange
  | none => .error (.uncoordinatedColumn column left)

/-- The requirement on the second input, once the first has been delivered. -/
def coordinate (coordination : Coordination) (facts : Facts) (required first : Layout) :
    Except Failure Layout :=
  match coordination, first.partitioning with
  | onKeys left right, some (.hash columns domain) => do
      let partners ← columns.mapM (partner facts left right)
      return ⟨some (.hash partners domain), required.properties⟩
  | _, _ => .ok required

end Coordination

end QueryOptimizer
