import QueryOptimizer.Layout.Requirements
import QueryOptimizer.Physical.Basic

/-! # Layouts that physical operators require -/

namespace QueryOptimizer.Physical

def byHash (columns : List Var) : Layout := ⟨some (.hash columns none), []⟩

/-- Operators that see all tuples at once need them in one place. -/
def inOnePlace (mode : Mode) (arity : Nat) : Requirements :=
  if mode = .unpartitioned then { layouts := [some (.unpartitioned [])] } else .free arity

/-- Requires the whole right input in every partition. -/
def broadcastRight : Requirements :=
  { layouts := [none, some ⟨some (.broadcast none), []⟩] }

def hashJoinRequirements (join : HashJoin) (mode : Mode) (arity : Nat) : Requirements :=
  if mode ≠ .partitioned then .free arity
  else
    match join.sides with
    | .pairwise =>
        { layouts := [some (byHash join.leftKeys), some (byHash join.rightKeys)],
          coordination := .onKeys join.leftKeys join.rightKeys }
    | .broadcast => broadcastRight

def orderProperties (order : List OrderColumn) : List LocalProperty := order.map .order

def sortRequirement (order : List OrderColumn) : Mode → Option Layout
  | .unpartitioned => some (.unpartitioned (orderProperties order))
  | .partitioned => some ⟨none, orderProperties order⟩
  | .local => none

/-- In partitions, the tuples of a group are in one of them. -/
def groupPartitioning? (keys : GroupColumns) (mode : Mode) : Option Partitioning :=
  if mode = .partitioned then some (.hash (keys.map (·.2)) none) else none

/-- The layouts that the operator requires from its inputs. -/
def requirements (p : Physical) (mode : Mode) (arity : Nat) : Requirements :=
  match p with
  | streamLimit | runningAggregate | aggregate => inOnePlace mode arity
  | unionAll =>
      if mode = .unpartitioned then
        { layouts := [some (.unpartitioned []), some (.unpartitioned [])] }
      else .free arity
  | preclusteredGroupBy keys _ =>
      { layouts := [some ⟨groupPartitioning? keys mode, [.grouping (.ofList (keys.map (·.2)))]⟩] }
  | externalGroupBy keys _ =>
      { layouts := [(groupPartitioning? keys mode).map fun p => ⟨some p, []⟩] }
  | preSortedDistinct columns =>
      let partitioning := match mode with
        | .partitioned => some (.hash columns none)
        | .unpartitioned => some .unpartitioned
        | .local => none
      { layouts := [some ⟨partitioning, columns.map fun c => .order ⟨c, .asc⟩⟩] }
  | stableSort order | inMemorySort order => { layouts := [sortRequirement order mode] }
  | hybridHashJoin join | inMemoryHashJoin join => hashJoinRequirements join mode arity
  | nestedLoopJoin _ => if mode = .partitioned then broadcastRight else .free arity
  | insertDelete _ keys =>
      if mode = .partitioned && !keys.isEmpty then { layouts := [some (byHash keys)] }
      else .free arity
  | _ => .free arity

end QueryOptimizer.Physical
