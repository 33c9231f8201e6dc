import QueryOptimizer.Layout.Partitioning

/-! # Layouts

A layout says how a stream of tuples is partitioned and how each partition is arranged. Layouts
are delivered by operators and required from their inputs.
-/

namespace QueryOptimizer

/-- The partitioning of a stream, if it matters, and the properties of each partition. -/
structure Layout where
  partitioning : Option Partitioning := none
  properties : List LocalProperty := []
  deriving DecidableEq

namespace Layout

instance : Inhabited Layout := ⟨{}⟩

def random : Layout := ⟨some (.random none), []⟩

def unpartitioned (properties : List LocalProperty) : Layout :=
  ⟨some .unpartitioned, properties⟩

/-- The orders at the beginning of a list of properties. -/
def leadingOrders : List LocalProperty → List OrderColumn
  | .order c :: rest => c :: leadingOrders rest
  | _ => []

/-- The columns by which each partition is sorted. -/
def orderColumns (layout : Layout) : List OrderColumn := leadingOrders layout.properties

/-- The part of the required partitioning that is missing. -/
def missingPartitioning (facts : Facts) (mayExpand : Bool) (required delivered : Layout) :
    Option Partitioning :=
  match required.partitioning, delivered.partitioning with
  | none, _ => none
  | some (.random none), none => none
  | some wanted, some given => if wanted.satisfiedBy given mayExpand facts then none else some wanted
  | some wanted, none => some wanted

/-- The required properties that are missing: none or all of them. -/
def missingProperties (facts : Facts) (required delivered : Layout) : List LocalProperty :=
  if LocalProperty.isMatch facts required.properties delivered.properties then []
  else required.properties

/-- What a delivered layout lacks of a required one, nothing if it satisfies it. -/
def missing? (facts : Facts) (mayExpand : Bool) (required delivered : Layout) : Option Layout :=
  match missingPartitioning facts mayExpand required delivered,
    missingProperties facts required delivered with
  | none, [] => none
  | partitioning, properties => some ⟨partitioning, properties⟩

def text (layout : Layout) : String :=
  "[" ++ (layout.partitioning.map (·.text)).getD "ANY" ++ " | "
    ++ Text.commas (layout.properties.map (·.text)) ++ "]"

end Layout

end QueryOptimizer
