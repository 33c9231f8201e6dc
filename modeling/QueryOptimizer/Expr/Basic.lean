import QueryOptimizer.Function
import QueryOptimizer.Scalar
import QueryOptimizer.Variable

/-! # Expressions

An expression is a constant, a variable or a call. A call carries hints for the optimizer.
-/

namespace QueryOptimizer

/-- Hints for the optimizer by key, in ascending order of the keys. -/
abbrev Hints := List (String × String)

namespace Hints

/-- Sets a hint, replacing the one with the same key. -/
def insert (key value : String) : Hints → Hints
  | [] => [(key, value)]
  | (k, v) :: rest =>
      if key < k then (key, value) :: (k, v) :: rest
      else if key = k then (key, value) :: rest
      else (k, v) :: insert key value rest

def get? (hints : Hints) (key : String) : Option String := hints.lookup key

end Hints

/-- An expression over variables. -/
inductive Expr where
  | const (value : Scalar)
  | var (v : Var)
  | call (function : Function) (args : List Expr) (hints : Hints)

namespace Expr

instance : Inhabited Expr := ⟨const (.null .null)⟩

mutual
/-- Equality of expressions, by structure and hints. -/
def same : Expr → Expr → Bool
  | const a, const b => a = b
  | var v, var w => v = w
  | call f as hs, call g bs js => f = g && sameList as bs && hs = js
  | _, _ => false

def sameList : List Expr → List Expr → Bool
  | [], [] => true
  | a :: as, b :: bs => same a b && sameList as bs
  | _, _ => false
end

mutual
theorem same_iff (a b : Expr) : same a b = true ↔ a = b := by
  cases a with
  | call f as hs => cases b <;> simp [same, sameList_iff as, and_assoc]
  | _ => cases b <;> simp [same]

theorem sameList_iff (as bs : List Expr) : sameList as bs = true ↔ as = bs := by
  cases as with
  | nil => cases bs <;> simp [sameList]
  | cons a as => cases bs <;> simp [sameList, same_iff a, sameList_iff as]
end

instance : DecidableEq Expr := fun a b => decidable_of_iff (same a b = true) (same_iff a b)

/-- The equality of two expressions. -/
def equal (left right : Expr) : Expr := call .eq [left, right] []

/-- The variable of a variable reference. -/
def asVar? : Expr → Option Var
  | var v => some v
  | _ => none

/-- The function of a call. -/
def function? : Expr → Option Function
  | call f _ _ => some f
  | _ => none

/-- The arguments of a call. -/
def args? : Expr → Option (List Expr)
  | call _ args _ => some args
  | _ => none

/-- Adds a hint to a call. Other expressions carry none. -/
def withHint (key value : String) : Expr → Expr
  | call f args hints => call f args (hints.insert key value)
  | e => e

def hint? (key : String) : Expr → Option String
  | call _ _ hints => hints.get? key
  | _ => none

/-- Whether the expression is the constant `true`. -/
def isTrue : Expr → Bool
  | const (.boolean value) => value
  | _ => false

mutual
/-- All occurrences of variables, from left to right. -/
def occurrences : Expr → List Var
  | const _ => []
  | var v => [v]
  | call _ args _ => occurrencesList args

def occurrencesList : List Expr → List Var
  | [] => []
  | e :: es => occurrences e ++ occurrencesList es
end

/-- The variables read by the expression, in order of first occurrence. -/
def usedVars (e : Expr) : List Var := distinct e.occurrences

mutual
/-- Whether equal values of the variables give equal results. -/
def isDeterministic : Expr → Bool
  | const _ => true
  | var _ => true
  | call f args _ => f.isDeterministic && allDeterministic args

def allDeterministic : List Expr → Bool
  | [] => true
  | e :: es => isDeterministic e && allDeterministic es
end

/-- Hints in square brackets, nothing when there are none. -/
def hintsText : Hints → String
  | [] => ""
  | hints => Text.bracketed (hints.map fun hint => hint.1 ++ "=" ++ hint.2)

mutual
/-- An expression as text. -/
def text : Expr → String
  | const value => value.text
  | var v => Var.text v
  | call f args hints => f.name ++ "(" ++ Text.commas (texts args) ++ ")" ++ hintsText hints

def texts : List Expr → List String
  | [] => []
  | e :: es => e.text :: texts es
end

/-- The variables read by any of the expressions, in order of first occurrence. -/
def usedVarsOf (es : List Expr) : List Var := distinct (occurrencesList es)

end Expr

end QueryOptimizer
