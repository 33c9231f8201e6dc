import QueryOptimizer.Plan.Basic

/-! # Patterns of plans -/

namespace QueryOptimizer

/-- A shape that a node may have: the kinds of operators that are allowed, and the shapes of all
    inputs. Without shapes of inputs, the inputs do not matter. -/
inductive Pattern where
  | shape (allowed : OperatorKind → Bool) (inputs : List Pattern)

namespace Pattern

def any : Pattern := shape (fun _ => true) []

/-- An operator of this kind. -/
def kind (k : OperatorKind) (inputs : List Pattern) : Pattern := shape (· = k) inputs

mutual
/-- Whether the node has the shape. -/
def isMatch (plan : Plan) (id : NodeId) : Pattern → Bool
  | shape allowed [] => allowed (plan.operator id).kind
  | shape allowed (first :: rest) =>
      allowed (plan.operator id).kind && areMatches plan (plan.inputs id) (first :: rest)

/-- Whether there is a shape for each node, and each node has its shape. -/
def areMatches (plan : Plan) (ids : List NodeId) : List Pattern → Bool
  | [] => ids.isEmpty
  | pattern :: patterns =>
      match ids with
      | [] => false
      | id :: ids => isMatch plan id pattern && areMatches plan ids patterns
end

end Pattern

end QueryOptimizer
