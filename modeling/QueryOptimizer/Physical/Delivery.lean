import QueryOptimizer.Catalog
import QueryOptimizer.Physical.Requirements

/-! # Layouts that physical operators deliver -/

namespace QueryOptimizer

/-- The layout of the tuples over other columns. Columns without an image are lost: tuples are
    then distributed at random, and the properties end where the first one is lost. -/
def Layout.mapColumns (layout : Layout) (f : Var → Option Var) : Layout :=
  ⟨layout.partitioning.map fun p => (p.mapColumns? f).getD (.random p.domain?),
    leading layout.properties⟩
where
  leading : List LocalProperty → List LocalProperty
    | [] => []
    | property :: rest =>
        match property.mapColumns? f with
        | some mapped => mapped :: leading rest
        | none => []

/-- The layout of the tuples after other columns were dropped. -/
def Layout.project (layout : Layout) (vs : List Var) : Layout :=
  layout.mapColumns fun v => if v ∈ vs then some v else none

namespace Physical

/-- What the delivery of an operator depends on. A layout that is not derived yet is a failure,
    which only counts if the layout is needed. -/
structure Surroundings where
  mode : Mode
  catalog : Catalog
  /-- The layout of the first input. -/
  input : Except Failure Layout
  /-- The layout of the first input of another node. -/
  inputOf : NodeId → Except Failure Layout

/-- The variable of the result for a variable of the input of a group-by. -/
def groupOutput? (columns : GroupColumns) (v : Var) : Option Var :=
  (columns.find? fun c => c.2 = v).map (·.1)

def inputPartitioning (s : Surroundings) : Except Failure (Option Partitioning) :=
  s.input.map (·.partitioning)

/-- An operator that sees all tuples in one place leaves them there. -/
def globalPartitioning (s : Surroundings) : Except Failure (Option Partitioning) :=
  if s.mode = .unpartitioned then .ok (some .unpartitioned) else inputPartitioning s

def hashJoinPartitioning (join : HashJoin) (s : Surroundings) :
    Except Failure (Option Partitioning) := do
  let probe ← inputPartitioning s
  match s.mode, join.sides with
  | .partitioned, .pairwise => return some (.hash join.leftKeys (probe.bind (·.domain?)))
  | _, _ => return probe

/-- The partitions of tuples whose columns are not known any more. -/
def scattered : Partitioning → Partitioning
  | .hash _ domain | .range _ domain => .random domain
  | p => p

/-- The layout of the result. -/
def delivered (p : Physical) (s : Surroundings) : Except Failure Layout :=
  match p with
  | emptySource => .ok (.unpartitioned [])
  | nestedSource owner => s.inputOf owner
  | scan source vars => s.catalog.layout source vars
  | streamProject vars => s.input.map (·.project vars)
  | unionAll =>
      if s.mode = .unpartitioned then .ok (.unpartitioned [])
      else return ⟨some (.random ((← inputPartitioning s).bind (·.domain?))), []⟩
  | script _ _ => return ⟨(← inputPartitioning s).map scattered, []⟩
  | aggregate => return ⟨← globalPartitioning s, []⟩
  | preclusteredGroupBy keys decor => s.input.map (·.mapColumns (groupOutput? (keys ++ decor)))
  | externalGroupBy keys decor =>
      s.input.map fun layout =>
        { layout.mapColumns (groupOutput? (keys ++ decor)) with properties := [] }
  | preSortedDistinct columns => s.input.map (·.project columns)
  | stableSort order | inMemorySort order =>
      return ⟨← globalPartitioning s, orderProperties order⟩
  | hybridHashJoin join => return ⟨← hashJoinPartitioning join s, []⟩
  | inMemoryHashJoin join =>
      return ⟨← hashJoinPartitioning join s, (← s.input).properties⟩
  | nestedLoopJoin _ => return ⟨← inputPartitioning s, []⟩
  | hashExchange columns domain => .ok ⟨some (.hash columns domain), []⟩
  | rangeExchange columns domain => .ok ⟨some (.range columns domain), []⟩
  | broadcastExchange domain => .ok ⟨some (.broadcast domain), []⟩
  | randomMergeExchange => .ok (.unpartitioned [])
  | sortMergeExchange order => .ok (.unpartitioned (orderProperties order))
  | randomExchange domain => .ok ⟨some (.random domain), []⟩
  | _ => s.input

end Physical

end QueryOptimizer
