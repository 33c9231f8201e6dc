/-! # Built-in functions -/

namespace QueryOptimizer

/-- The functions an expression may call. -/
inductive Function where
  | eq
  | neq
  | lt
  | le
  | gt
  | ge
  | and
  | or
  | not
  | isNull
  | plus
  | minus
  | multiply
  | divide
  | random
  | count
  | sum
  | min
  | max
  | avg
  | listify
  | scanCollection
  | range
  deriving DecidableEq, Repr

/-- Whether a function maps values, folds many values into one, or spreads one into many. -/
inductive FunctionKind where
  | scalar
  | aggregate
  | unnest
  deriving DecidableEq, Repr

def FunctionKind.text : FunctionKind → String
  | scalar => "Scalar"
  | aggregate => "Aggregate"
  | unnest => "Unnest"

namespace Function

def all : List Function :=
  [eq, neq, lt, le, gt, ge, and, or, not, isNull, plus, minus, multiply, divide, random,
   count, sum, min, max, avg, listify, scanCollection, range]

def name : Function → String
  | eq => "eq"
  | neq => "neq"
  | lt => "lt"
  | le => "le"
  | gt => "gt"
  | ge => "ge"
  | and => "and"
  | or => "or"
  | not => "not"
  | isNull => "is_null"
  | plus => "plus"
  | minus => "minus"
  | multiply => "multiply"
  | divide => "divide"
  | random => "random"
  | count => "count"
  | sum => "sum"
  | min => "min"
  | max => "max"
  | avg => "avg"
  | listify => "listify"
  | scanCollection => "scan_collection"
  | range => "range"

/-- The function of that name. -/
def ofName? (name : String) : Option Function :=
  all.find? fun function => function.name = name

def kind : Function → FunctionKind
  | count | sum | min | max | avg | listify => .aggregate
  | scanCollection | range => .unnest
  | _ => .scalar

/-- Whether equal arguments give equal results. -/
def isDeterministic : Function → Bool
  | random => false
  | _ => true

def isComparison : Function → Bool
  | eq | neq | lt | le | gt | ge => true
  | _ => false

end Function

end QueryOptimizer
