import QueryOptimizer.Plan.Pattern

/-! # Rules

The transformations that a batch can be made of, and the shapes of plans that they apply to.
-/

namespace QueryOptimizer

inductive Rule where
  | inferTypes
  | splitSelect
  | inlineVariables
  | dropUnusedAssigns
  | pushSelect
  | mergeSelectIntoJoin
  | mergeLimits
  | pushLimit
  | chooseMode
  | mergeSelects
  | mergeAssigns
  | dropRedundantProject
  | choosePhysical
  | enforceLayouts
  deriving DecidableEq, Repr

namespace Rule

def all : List Rule :=
  [inferTypes, splitSelect, inlineVariables, dropUnusedAssigns, pushSelect, mergeSelectIntoJoin,
   mergeLimits, pushLimit, chooseMode, mergeSelects, mergeAssigns, dropRedundantProject,
   choosePhysical, enforceLayouts]

def name : Rule → String
  | inferTypes => "InferTypes"
  | splitSelect => "BreakSelectIntoConjuncts"
  | inlineVariables => "InlineVariables"
  | dropUnusedAssigns => "RemoveUnusedAssigns"
  | pushSelect => "PushSelectDown"
  | mergeSelectIntoJoin => "PushSelectIntoJoin"
  | mergeLimits => "MergeLimits"
  | pushLimit => "PushLimitDown"
  | chooseMode => "SetExecutionMode"
  | mergeSelects => "ConsolidateSelects"
  | mergeAssigns => "ConsolidateAssigns"
  | dropRedundantProject => "RemoveRedundantProject"
  | choosePhysical => "SetPhysicalOperators"
  | enforceLayouts => "EnforceStructuralProperties"

/-- The rule of that name. -/
def ofName? (name : String) : Option Rule := all.find? fun rule => rule.name = name

/-- The shape of the nodes that the rule looks at. -/
def pattern : Rule → Pattern
  | splitSelect => .kind .select []
  | pushSelect => .kind .select [.any]
  | mergeSelectIntoJoin => .kind .select [.kind .join []]
  | mergeLimits => .kind .limit [.kind .limit [.any]]
  | pushLimit => .kind .limit [.shape (fun k => k = .project || k = .assign) []]
  | mergeSelects => .kind .select [.kind .select []]
  | mergeAssigns => .kind .assign [.kind .assign []]
  | dropRedundantProject => .kind .project [.any]
  | _ => .any

end Rule

end QueryOptimizer
