import QueryOptimizer.Variable

/-! # Functional dependencies -/

namespace QueryOptimizer

/-- Tuples that agree on the head agree on the tail. -/
structure Dependency where
  head : VarSet
  tail : VarSet
  deriving DecidableEq

namespace Dependency

instance : Inhabited Dependency := ⟨⟨∅, ∅⟩⟩

def ofLists (head tail : List Var) : Dependency := ⟨.ofList head, .ofList tail⟩

/-- The variable has the same value in all tuples. -/
def constant (v : Var) : Dependency := ⟨∅, .singleton v⟩

def extendTail (d : Dependency) (vs : List Var) : Dependency :=
  { d with tail := d.tail.insertAll vs }

/-- The dependency between the first names of the head and all names of the tail. There is none
    if a variable of the head has no name, or none of the tail has. -/
def rename? (d : Dependency) (names : Var → List Var) : Option Dependency := do
  let head ← d.head.toList.mapM fun v => (names v).head?
  match d.tail.toList.flatMap names with
  | [] => none
  | tail => some (ofLists head tail)

/-- What the dependency says about some variables: nothing if the head needs others. -/
def restrict? (d : Dependency) (vs : List Var) : Option Dependency :=
  let tail := d.tail.filter fun v => decide (v ∈ vs)
  if (d.head.toList.all fun v => decide (v ∈ vs)) && !tail.isEmpty then some ⟨d.head, tail⟩
  else none

def text (d : Dependency) : String := d.head.text ++ " -> " ++ d.tail.text

end Dependency

end QueryOptimizer
