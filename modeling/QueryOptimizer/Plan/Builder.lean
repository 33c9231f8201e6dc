import QueryOptimizer.Plan.Schema

/-! # Building plans

A builder puts one operator on top of another. The first operator that has nothing to stand on is
remembered, and the building fails in the end.
-/

namespace QueryOptimizer

/-- A plan in the making. -/
structure Builder where
  plan : Plan := {}
  /-- The node that the next operator stands on. -/
  top : Option NodeId := none
  failure : Option Failure := none

namespace Builder

instance : Inhabited Builder := ⟨{}⟩

def fail (b : Builder) (op : Operator) : Builder :=
  { b with failure := b.failure.or (some (.nothingToBuildUpon op.name)) }

/-- Adds a node, on which the next operator stands. -/
def put (b : Builder) (op : Operator) (inputs : List NodeId) : Builder :=
  let (plan, id) := b.plan.add op inputs
  { b with plan := plan, top := some id }

/-- Puts an operator on top. -/
def push (b : Builder) (op : Operator) : Builder :=
  match b.top with
  | some input => b.put op [input]
  | none => b.fail op

/-- Puts an operator with a second input on top. -/
def pushOver (b : Builder) (op : Operator) (right : NodeId) : Builder :=
  match b.top with
  | some left => b.put op [left, right]
  | none => b.fail op

def emptySource (b : Builder) : Builder := b.put .emptySource []

/-- Scans a data source, once. -/
def scan (b : Builder) (source : String) (vars : List Var) : Builder :=
  (b.put .emptySource []).push (.scan source vars)

/-- Puts an operator with a nested plan on top. The nested plan starts with the tuples of the
    operator's input. -/
def nest {m : Type → Type} [Monad m] (b : Builder) (op : Operator) (nested : Builder → m Builder) :
    m Builder :=
  match b.top with
  | none => pure (b.fail op)
  | some input => do
      let (plan, owner) := b.plan.add op [input]
      let (plan, source) := plan.add (.nestedSource owner) []
      let inner ← nested { b with plan := plan, top := some source }
      let root := inner.top.getD source
      let owned := (inner.plan.operator owner).mapNested (· ++ [[root]])
      return { inner with plan := inner.plan.setOperator owner owned, top := some owner }

/-- Adds a hint to the operator on top. -/
def hint (b : Builder) (key value : String) : Builder :=
  match b.top with
  | some id => { b with plan := b.plan.setHint id key value }
  | none => b

/-- Takes the node on top away, to be an input later. -/
def detach (b : Builder) : Except Failure (Builder × NodeId) :=
  match b.failure, b.top with
  | some failure, _ => .error failure
  | none, some id => .ok ({ b with top := none }, id)
  | none, none => .error .nothingToDetach

/-- The plan below the operator on top. -/
def build (b : Builder) : Except Failure Plan := do
  let (b, root) ← b.detach
  { b.plan with root := root }.refreshSchemas

end Builder

end QueryOptimizer
