import QueryOptimizer.Layout.Partitioning
import QueryOptimizer.Operator.Basic
import QueryOptimizer.Text.Quoted

/-! # Physical operators

A physical operator is an algorithm for a logical operator.
-/

namespace QueryOptimizer

/-- Where an operator runs. -/
inductive Mode where
  /-- In one place, on all tuples. -/
  | unpartitioned
  /-- On each partition. -/
  | partitioned
  /-- Inside a nested plan. -/
  | local
  deriving DecidableEq, Repr

namespace Mode

instance : Inhabited Mode := ⟨unpartitioned⟩

def text : Mode → String
  | unpartitioned => "Unpartitioned"
  | partitioned => "Partitioned"
  | «local» => "Local"

end Mode

/-- How matching tuples of the two sides of a hash join meet. -/
inductive JoinSides where
  /-- Both sides are partitioned by the keys. -/
  | pairwise
  /-- Every partition holds the whole right side. -/
  | broadcast
  deriving DecidableEq, Repr

def JoinSides.text : JoinSides → String
  | pairwise => "Pairwise"
  | broadcast => "Broadcast"

/-- A join on equal keys. The table is built over the right side. -/
structure HashJoin where
  kind : JoinKind
  sides : JoinSides
  leftKeys : List Var
  rightKeys : List Var
  deriving DecidableEq, Repr

/-- Columns of a group-by: the variable of the result and the variable of the input. -/
abbrev GroupColumns := List (Var × Var)

/-- An algorithm for a logical operator. -/
inductive Physical where
  | emptySource
  | nestedSource (owner : NodeId)
  | scan (source : String) (vars : List Var)
  | streamSelect
  | assign
  | streamProject (vars : List Var)
  | streamLimit
  | unnest
  | runningAggregate
  | subplan
  | replicate
  | unionAll
  | script (command : String) (outputs : List Var)
  | aggregate
  /-- Expects the tuples of a group one after the other. -/
  | preclusteredGroupBy (keys decor : GroupColumns)
  /-- Collects groups in a table. -/
  | externalGroupBy (keys decor : GroupColumns)
  | preSortedDistinct (columns : List Var)
  | stableSort (order : List OrderColumn)
  | inMemorySort (order : List OrderColumn)
  | hybridHashJoin (join : HashJoin)
  | inMemoryHashJoin (join : HashJoin)
  | nestedLoopJoin (kind : JoinKind)
  | oneToOneExchange
  | hashExchange (columns : List Var) (domain : Option Domain)
  | rangeExchange (columns : List OrderColumn) (domain : Option Domain)
  | broadcastExchange (domain : Option Domain)
  | randomMergeExchange
  | sortMergeExchange (order : List OrderColumn)
  | randomExchange (domain : Option Domain)
  | sinkWrite (sink : String)
  | insertDelete (dataset : String) (keys : List Var)
  | sink
  deriving DecidableEq, Repr

namespace Physical

def name : Physical → String
  | emptySource => "EmptyTupleSource"
  | nestedSource _ => "NestedTupleSource"
  | scan .. => "DataSourceScan"
  | streamSelect => "StreamSelect"
  | assign => "Assign"
  | streamProject _ => "StreamProject"
  | streamLimit => "StreamLimit"
  | unnest => "Unnest"
  | runningAggregate => "RunningAggregate"
  | subplan => "Subplan"
  | replicate => "Replicate"
  | unionAll => "UnionAll"
  | script .. => "Script"
  | aggregate => "Aggregate"
  | preclusteredGroupBy .. => "PreclusteredGroupBy"
  | externalGroupBy .. => "ExternalGroupBy"
  | preSortedDistinct _ => "PreSortedDistinctBy"
  | stableSort _ => "StableSort"
  | inMemorySort _ => "InMemoryStableSort"
  | hybridHashJoin _ => "HybridHashJoin"
  | inMemoryHashJoin _ => "InMemoryHashJoin"
  | nestedLoopJoin _ => "NestedLoopJoin"
  | oneToOneExchange => "OneToOneExchange"
  | hashExchange .. => "HashPartitionExchange"
  | rangeExchange .. => "RangePartitionExchange"
  | broadcastExchange _ => "BroadcastExchange"
  | randomMergeExchange => "RandomMergeExchange"
  | sortMergeExchange _ => "SortMergeExchange"
  | randomExchange _ => "RandomPartitionExchange"
  | sinkWrite _ => "SinkWrite"
  | insertDelete .. => "InsertDelete"
  | sink => "Sink"

/-- The algorithms that are given by their name alone. -/
def simple : List Physical :=
  [emptySource, streamSelect, assign, streamLimit, unnest, runningAggregate, subplan, replicate,
   unionAll, aggregate, oneToOneExchange, randomMergeExchange, sink]

def ofName? (name : String) : Option Physical := simple.find? fun p => p.name = name

/-- Whether the algorithm can run inside a nested plan. -/
def isPipelined : Physical → Bool
  | scan .. | unionAll | externalGroupBy .. | stableSort _ | hybridHashJoin _ | inMemoryHashJoin _
  | nestedLoopJoin _ | oneToOneExchange | hashExchange .. | rangeExchange .. | broadcastExchange _
  | randomMergeExchange | sortMergeExchange _ | randomExchange _ | insertDelete .. | sink => false
  | _ => true

/-- Changes the owner of a nested source. -/
def ownedBy (owner : NodeId) : Physical → Physical
  | nestedSource _ => nestedSource owner
  | p => p

def isExchange : Physical → Bool
  | oneToOneExchange | hashExchange .. | rangeExchange .. | broadcastExchange _
  | randomMergeExchange | sortMergeExchange _ | randomExchange _ => true
  | _ => false

def isSort : Physical → Bool
  | stableSort _ | inMemorySort _ => true
  | _ => false

def orderText (columns : List OrderColumn) : String := Text.bracketed (columns.map (·.text))

def groupText (columns : GroupColumns) : String :=
  Text.bracketed (columns.map fun c => Var.text c.1 ++ " := " ++ Var.text c.2)

/-- The fields that are shown behind the name. -/
def fields : Physical → List (String × String)
  | scan source vars => [("data_source", Text.quoted source), ("variables", varsText vars)]
  | script command outputs => [("command", Text.quoted command), ("outputs", varsText outputs)]
  | preclusteredGroupBy keys decor | externalGroupBy keys decor =>
      ("keys", groupText keys) :: (if decor.isEmpty then [] else [("decor", groupText decor)])
  | preSortedDistinct columns => [("columns", varsText columns)]
  | stableSort order | inMemorySort order | sortMergeExchange order => [("order", orderText order)]
  | hybridHashJoin join | inMemoryHashJoin join =>
      [("kind", join.kind.text), ("partitioning", join.sides.text),
        ("left_keys", varsText join.leftKeys), ("right_keys", varsText join.rightKeys)]
  | nestedLoopJoin kind => [("kind", kind.text)]
  | hashExchange columns _ => [("columns", varsText columns)]
  | rangeExchange columns _ => [("columns", orderText columns)]
  | sinkWrite target => [("sink", Text.quoted target)]
  | insertDelete dataset keys =>
      [("dataset", Text.quoted dataset), ("primary_keys", varsText keys)]
  | _ => []

/-- A physical operator as text: its name and fields. -/
def text (p : Physical) : String := Text.record p.name p.fields

end Physical

end QueryOptimizer
