import QueryOptimizer.Facts.Basic

/-! # Local properties

How the tuples of one partition are arranged: a list of orders and groupings, each of which holds
among the tuples that agree on the columns of the ones before it.
-/

namespace QueryOptimizer

inductive Direction where
  | asc
  | desc
  deriving DecidableEq, Repr

def Direction.text : Direction → String
  | asc => "ASC"
  | desc => "DESC"

/-- A column and the direction in which it is ordered. -/
structure OrderColumn where
  column : Var
  direction : Direction := .asc
  deriving DecidableEq, Repr

def OrderColumn.text (c : OrderColumn) : String := Var.text c.column ++ " " ++ c.direction.text

/-- An arrangement of the tuples of one partition. -/
inductive LocalProperty where
  | order (column : OrderColumn)
  /-- Tuples that agree on the columns stand together. -/
  | grouping (columns : VarSet)
  deriving DecidableEq

namespace LocalProperty

def columns : LocalProperty → List Var
  | order c => [c.column]
  | grouping columns => columns.toList

/-- The property with other columns, or nothing if one of them has no image. -/
def mapColumns? (f : Var → Option Var) : LocalProperty → Option LocalProperty
  | order c => (f c.column).map fun column => order { c with column := column }
  | grouping columns => (columns.mapM? f).map grouping

def text : LocalProperty → String
  | order c => c.text
  | grouping columns => columns.text

/-- The columns of a grouping that the others do not determine. Larger columns go first, and one
    column always stays. -/
def reduceColumns (facts : Facts) (columns : VarSet) : VarSet :=
  let start := VarSet.ofList <|
    (columns.toList.filter fun v => !facts.equivalence.isConstant v).map
      facts.equivalence.representativeVar
  start.toList.reverse.foldl
    (fun kept v =>
      if kept.size ≤ 1 then kept
      else if facts.determines (kept.erase v).toList [v] then kept.erase v
      else kept)
    start

/-- Normal form of the properties that follow properties over the columns `preceding`. -/
def normalizeAfter (facts : Facts) : List Var → List LocalProperty → List LocalProperty
  | _, [] => []
  | preceding, order c :: rest =>
      let column := facts.equivalence.representativeVar c.column
      if facts.equivalence.isConstant c.column || decide (column ∈ facts.closure preceding) then
        normalizeAfter facts preceding rest
      else order { c with column := column } :: normalizeAfter facts (preceding ++ [column]) rest
  | preceding, grouping columns :: rest =>
      let reduced := reduceColumns facts columns
      if reduced.isEmpty then normalizeAfter facts preceding rest
      else grouping reduced :: normalizeAfter facts (preceding ++ reduced.toList) rest

/-- Normal form: representatives in place of equivalent columns, without the orders and columns
    that follow from the rest. -/
def normalize (facts : Facts) (properties : List LocalProperty) : List LocalProperty :=
  normalizeAfter facts [] properties

/-- Whether two sets of columns group tuples alike. -/
def sameGrouping (facts : Facts) (left right : VarSet) : Bool :=
  left = right ||
    (facts.determines left.toList right.toList && facts.determines right.toList left.toList)

/-- Takes orders over columns of the grouping until they make up the grouping. Returns what
    follows them. -/
def takeGrouping (facts : Facts) (columns : VarSet) :
    VarSet → List LocalProperty → Option (List LocalProperty)
  | covered, order c :: rest =>
      if facts.determines columns.toList [c.column] then
        let covered := covered.insert c.column
        if sameGrouping facts columns covered then some rest
        else takeGrouping facts columns covered rest
      else none
  | _, _ => none

/-- Whether normalized properties, one after the other, provide the required ones. -/
def provides (facts : Facts) : List LocalProperty → List LocalProperty → Bool
  | [], _ => true
  | order c :: required, order d :: delivered => d = c && provides facts required delivered
  | grouping columns :: required, grouping group :: delivered =>
      sameGrouping facts columns group && provides facts required delivered
  | grouping columns :: required, order c :: delivered =>
      match takeGrouping facts columns ∅ (order c :: delivered) with
      | some rest => provides facts required rest
      | none => false
  | _, _ => false

/-- Whether tuples with the delivered properties also have the required ones. -/
def isMatch (facts : Facts) (required delivered : List LocalProperty) : Bool :=
  provides facts (normalize facts required) (normalize facts delivered)

end LocalProperty

end QueryOptimizer
