import QueryOptimizer.Expr.Conjunction
import QueryOptimizer.Facts.Dependency
import QueryOptimizer.Facts.Equivalence

/-! # Facts about tuples

What is known about the tuples that flow between two operators: which variables have equal
values, and which variables determine others.
-/

namespace QueryOptimizer

/-- Equivalences and dependencies that hold in every tuple. -/
structure Facts where
  equivalence : Equivalence := {}
  dependencies : List Dependency := []
  deriving DecidableEq

namespace Facts

instance : Inhabited Facts := ⟨{}⟩

/-- No facts. -/
def empty : Facts := {}

def merge (facts : Facts) (left right : Var) : Facts :=
  { facts with equivalence := facts.equivalence.merge left right }

def addConstant (facts : Facts) (v : Var) (value : Scalar) : Facts :=
  { facts with equivalence := facts.equivalence.addConstant v value }

def addDependency (facts : Facts) (d : Dependency) : Facts :=
  { facts with dependencies := facts.dependencies ++ [d] }

/-- Uses one dependency: once the head is known, the tail is, with all equivalent variables. -/
def follow (equivalence : Equivalence) (known : VarSet) (d : Dependency) : VarSet :=
  if d.head.isSubset known && !d.tail.isSubset known then
    d.tail.toList.foldl (fun known v => known.union (equivalence.membersOf v)) known
  else known

/-- Uses all dependencies until nothing is added. Each adds something at most once, so as many
    rounds as there are dependencies are enough. -/
def saturate (facts : Facts) : Nat → VarSet → VarSet
  | 0, known => known
  | rounds + 1, known =>
      let next := facts.dependencies.foldl (follow facts.equivalence) known
      if next = known then known else saturate facts rounds next

/-- The variables known at the start: the given ones, what is equivalent to them, and all with
    a constant value. -/
def closureBase (facts : Facts) (vs : List Var) : VarSet :=
  let given := vs.foldl (fun known v => known.union (facts.equivalence.membersOf v)) ∅
  (facts.equivalence.classes.filter (·.constant.isSome)).foldl
    (fun known c => known.union c.members) given

/-- All variables whose values follow from the values of the given ones. -/
def closure (facts : Facts) (vs : List Var) : VarSet :=
  facts.saturate facts.dependencies.length (facts.closureBase vs)

/-- Whether the values of the target follow from the values of the head. -/
def determines (facts : Facts) (head target : List Var) : Bool :=
  (facts.closure head).containsAll target

/-- Learns from one conjunct of a condition that holds. Only equalities of variables, and of a
    variable and a constant, teach anything. -/
def assumeConjunct (facts : Facts) : Expr → Facts
  | .call .eq [.var left, .var right] _ => facts.merge left right
  | .call .eq [.var v, .const value] _ | .call .eq [.const value, .var v] _ =>
      let pinned := facts.addConstant v value
      if .constant v ∈ pinned.dependencies then pinned else pinned.addDependency (.constant v)
  | _ => facts

/-- Learns from a condition that holds. -/
def assume (facts : Facts) (condition : Expr) : Facts :=
  condition.conjuncts.foldl assumeConjunct facts

/-- Learns from the assignment of an expression to a variable. -/
def assign (facts : Facts) (v : Var) (e : Expr) : Facts :=
  match e with
  | .const value => (facts.addConstant v value).addDependency (.constant v)
  | .var w => compute (facts.merge w v) v e
  | .call .. => compute facts v e
where
  /-- A deterministic expression is determined by the variables that it reads, and so by all
      that determines these. -/
  compute (facts : Facts) (v : Var) (e : Expr) : Facts :=
    let used := e.usedVars
    if used.isEmpty || !e.isDeterministic then facts
    else
      { facts with
        dependencies :=
          (facts.dependencies.map fun d => if d.tail.containsAll used then d.extendTail [v] else d)
            ++ [.ofLists used [v]] }

/-- The facts about some variables only. -/
def restrict (facts : Facts) (vs : List Var) : Facts :=
  ⟨facts.equivalence.restrict fun v => decide (v ∈ vs),
    facts.dependencies.filterMap (·.restrict? vs)⟩

/-- The facts under other names of the variables. -/
def rename (facts : Facts) (names : Var → List Var) : Facts :=
  ⟨facts.equivalence.rename names, facts.dependencies.filterMap (·.rename? names)⟩

end Facts

end QueryOptimizer
