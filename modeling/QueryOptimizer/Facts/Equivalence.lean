import QueryOptimizer.Expr.Basic

/-! # Equivalence classes of variables

Variables that are known to have the same value stand in one class. A class may also be known
to have a constant value. Variables without a class are equivalent to themselves only.
-/

namespace QueryOptimizer

/-- Variables with one value, which may be known. -/
structure EquivalenceClass where
  members : VarSet
  constant : Option Scalar := none
  deriving DecidableEq

namespace EquivalenceClass

instance : Inhabited EquivalenceClass := ⟨⟨∅, none⟩⟩

/-- The constant of the class, or else its smallest member. -/
def representative? (c : EquivalenceClass) : Option Expr :=
  match c.constant with
  | some value => some (.const value)
  | none => c.members.min?.map .var

/-- Whether the class says nothing: at most one member and no constant. -/
def isTrivial (c : EquivalenceClass) : Bool := c.constant.isNone && c.members.size < 2

def insert (c : EquivalenceClass) (v : Var) : EquivalenceClass :=
  { c with members := c.members.insert v }

/-- Takes the members of another class, and its constant if there was none. -/
def absorb (c other : EquivalenceClass) : EquivalenceClass :=
  ⟨c.members.union other.members, c.constant.or other.constant⟩

/-- Gives the class a constant if it has none. -/
def pin (c : EquivalenceClass) (value : Scalar) : EquivalenceClass :=
  { c with constant := c.constant.or (some value) }

def text (c : EquivalenceClass) : String :=
  match c.constant with
  | some value => c.members.text ++ " = " ++ value.text
  | none => c.members.text

end EquivalenceClass

/-- Classes of equivalent variables. -/
structure Equivalence where
  classes : List EquivalenceClass := []
  deriving DecidableEq

namespace Equivalence

instance : Inhabited Equivalence := ⟨⟨[]⟩⟩

/-- The position of the class that holds the variable. -/
def position? (q : Equivalence) (v : Var) : Option Nat :=
  q.classes.findIdx? fun c => decide (v ∈ c.members)

def classOf? (q : Equivalence) (v : Var) : Option EquivalenceClass :=
  q.classes.find? fun c => decide (v ∈ c.members)

/-- Joins the class at `high` to the class at the lower position `low`. -/
def absorb (q : Equivalence) (low high : Nat) : Equivalence :=
  match q.classes[high]? with
  | some removed => ⟨(q.classes.eraseIdx high).modify low (·.absorb removed)⟩
  | none => q

/-- Makes two variables equivalent. -/
def merge (q : Equivalence) (left right : Var) : Equivalence :=
  match q.position? left, q.position? right with
  | none, none => ⟨q.classes ++ [⟨.ofList [left, right], none⟩]⟩
  | some i, none => ⟨q.classes.modify i (·.insert right)⟩
  | none, some i => ⟨q.classes.modify i (·.insert left)⟩
  | some l, some r => if l = r then q else q.absorb (min l r) (max l r)

/-- Records the value of a variable. A value that is already known stays. -/
def addConstant (q : Equivalence) (v : Var) (value : Scalar) : Equivalence :=
  match q.position? v with
  | some i => ⟨q.classes.modify i (·.pin value)⟩
  | none => ⟨q.classes ++ [⟨.singleton v, some value⟩]⟩

def areEquivalent (q : Equivalence) (left right : Var) : Bool :=
  left = right ||
    match q.position? left, q.position? right with
    | some l, some r => l = r
    | _, _ => false

def constantOf? (q : Equivalence) (v : Var) : Option Scalar := (q.classOf? v).bind (·.constant)

def isConstant (q : Equivalence) (v : Var) : Bool := (q.constantOf? v).isSome

/-- What stands for the variable: its constant, or the smallest equivalent variable. -/
def representative (q : Equivalence) (v : Var) : Expr :=
  ((q.classOf? v).bind (·.representative?)).getD (.var v)

/-- The smallest equivalent variable. -/
def representativeVar (q : Equivalence) (v : Var) : Var :=
  ((q.classOf? v).bind (·.members.min?)).getD v

/-- All variables equivalent to the variable. -/
def membersOf (q : Equivalence) (v : Var) : VarSet :=
  match q.classOf? v with
  | some c => c.members
  | none => .singleton v

/-- Adds the class of some variables, the first of which stands for all. -/
def addClass (q : Equivalence) (members : List Var) (constant : Option Scalar) : Equivalence :=
  match members with
  | [] => q
  | first :: others =>
      let merged := others.foldl (fun q v => q.merge first v) q
      match constant with
      | some value => merged.addConstant first value
      | none => merged

/-- Forgets all other variables. Classes that say nothing any more are dropped. -/
def restrict (q : Equivalence) (keep : Var → Bool) : Equivalence :=
  ⟨(q.classes.map fun c => { c with members := c.members.filter keep }).filter fun c =>
    !c.members.isEmpty && !c.isTrivial⟩

/-- The classes under other names. A variable may get several names, or none. -/
def rename (q : Equivalence) (names : Var → List Var) : Equivalence :=
  q.classes.foldl (fun r c => r.addClass (c.members.toList.flatMap names) c.constant) ⟨[]⟩

/-- Adds all classes of another equivalence. -/
def union (q other : Equivalence) : Equivalence :=
  other.classes.foldl (fun r c => r.addClass c.members.toList c.constant) q

def text (q : Equivalence) : String := Text.bracketed (q.classes.map (·.text))

end Equivalence

end QueryOptimizer
