import QueryOptimizer.Catalog
import QueryOptimizer.Expr.Typing
import QueryOptimizer.Plan.Basic
import QueryOptimizer.Rule
import QueryOptimizer.Size

/-! # Context of an optimization

What the optimizer knows about the world, and what it has found out about the nodes of a plan.
-/

namespace QueryOptimizer

/-- Values by node. -/
structure NodeTable (α : Type) where
  entries : List (NodeId × α) := []

namespace NodeTable

variable {α : Type}

def get? (table : NodeTable α) (id : NodeId) : Option α := table.entries.lookup id

def erase (table : NodeTable α) (id : NodeId) : NodeTable α :=
  ⟨table.entries.filter fun entry => entry.1 ≠ id⟩

def insert (table : NodeTable α) (id : NodeId) (value : α) : NodeTable α :=
  ⟨(id, value) :: (table.erase id).entries⟩

end NodeTable

/-- The knowledge of the optimizer. -/
structure Context where
  catalog : Catalog := {}
  config : Config := {}
  /-- The largest variable that is in use. -/
  lastVariable : Var := 0
  facts : NodeTable Facts := {}
  types : NodeTable TypeEnv := {}
  sizes : NodeTable Size := {}
  delivered : NodeTable Layout := {}
  /-- The rules that are done with a node. -/
  applied : NodeTable (List Rule) := {}
  /-- The variables that other variables do not replace. -/
  kept : VarSet := ∅

namespace Context

instance : Inhabited Context := ⟨{}⟩

/-- Variables are below this bound, `2 ^ 32`. -/
def variableBound : Nat := 4294967296

/-- A variable that is not in use. -/
def newVariable (context : Context) : Except Failure (Context × Var) :=
  let v := context.lastVariable + 1
  if v < variableBound then .ok ({ context with lastVariable := v }, v) else .error .overflow

/-- Takes all variables up to the given one into use. -/
def reserve (context : Context) (v : Option Var) : Context :=
  { context with lastVariable := max context.lastVariable (v.getD 0) }

def setFacts (context : Context) (id : NodeId) (facts : Facts) : Context :=
  { context with facts := context.facts.insert id facts }

def setTypes (context : Context) (id : NodeId) (env : TypeEnv) : Context :=
  { context with types := context.types.insert id env }

def setSize (context : Context) (id : NodeId) (size : Size) : Context :=
  { context with sizes := context.sizes.insert id size }

def setDelivered (context : Context) (id : NodeId) (layout : Layout) : Context :=
  { context with delivered := context.delivered.insert id layout }

def appliedTo (context : Context) (id : NodeId) : List Rule := (context.applied.get? id).getD []

def isApplied (context : Context) (rule : Rule) (id : NodeId) : Bool :=
  decide (rule ∈ context.appliedTo id)

def setApplied (context : Context) (rule : Rule) (id : NodeId) : Context :=
  { context with applied := context.applied.insert id (rule :: context.appliedTo id) }

def clearApplied (context : Context) (rule : Rule) (id : NodeId) : Context :=
  { context with
    applied := context.applied.insert id ((context.appliedTo id).filter (· ≠ rule)) }

def resetApplied (context : Context) : Context := { context with applied := {} }

/-- Keeps a variable from being replaced by an equivalent one. -/
def keep (context : Context) (v : Var) : Context := { context with kept := context.kept.insert v }

/-- Forgets what was derived from the plan, except for layouts. -/
def invalidate (context : Context) : Context :=
  { context with facts := {}, types := {}, sizes := {} }

/-- Forgets everything about a node. -/
def forget (context : Context) (id : NodeId) : Context :=
  { context with
    facts := context.facts.erase id, types := context.types.erase id,
    sizes := context.sizes.erase id, delivered := context.delivered.erase id,
    applied := context.applied.erase id }

end Context

end QueryOptimizer
