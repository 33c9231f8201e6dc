import QueryOptimizer.Expr.Basic

/-! # Substitution and renaming of variables -/

namespace QueryOptimizer.Expr

mutual
/-- Puts `value` in place of the variable `target`. -/
def substitute (e : Expr) (target : Var) (value : Expr) : Expr :=
  match e with
  | const c => const c
  | var v => if v = target then value else var v
  | call f args hints => call f (substituteList args target value) hints

def substituteList (es : List Expr) (target : Var) (value : Expr) : List Expr :=
  match es with
  | [] => []
  | e :: es => substitute e target value :: substituteList es target value
end

mutual
/-- Renames the variables of an expression. -/
def rename (renames : Renaming) : Expr → Expr
  | const value => const value
  | var v => var (renames.apply v)
  | call f args hints => call f (renameList renames args) hints

def renameList (renames : Renaming) : List Expr → List Expr
  | [] => []
  | e :: es => rename renames e :: renameList renames es
end

/-- Whether a substitution of the variable reaches the expression. -/
def mentions (e : Expr) (target : Var) : Bool := e.occurrences.any (· = target)

/-- Whether a renaming gives some variable of the expression another name. -/
def isRenamedBy (e : Expr) (renames : Renaming) : Bool :=
  e.occurrences.any fun v => renames.apply v ≠ v

end QueryOptimizer.Expr
