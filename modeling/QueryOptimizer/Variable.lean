import QueryOptimizer.Text.Listing

/-! # Variables and sets of variables

A variable is named by its number. Sets of variables are ascending lists, so that two sets with
the same members are equal and every listing of a set is sorted.
-/

namespace QueryOptimizer

/-- A variable, named by its number. -/
abbrev Var := Nat

/-- A variable as text, `$3`. -/
def Var.text (v : Var) : String := "$" ++ Nat.repr v

/-- Puts a variable in its place in an ascending list that may already hold it. -/
def insertAscending (v : Var) : List Var → List Var
  | [] => [v]
  | w :: ws => if v < w then v :: w :: ws else if v = w then w :: ws else w :: insertAscending v ws

theorem mem_insertAscending {u v : Var} {ws : List Var} :
    u ∈ insertAscending v ws ↔ u = v ∨ u ∈ ws := by
  induction ws with
  | nil => simp [insertAscending]
  | cons w ws ih => grind [insertAscending]

theorem pairwise_insertAscending (v : Var) {ws : List Var} (ascending : ws.Pairwise (· < ·)) :
    (insertAscending v ws).Pairwise (· < ·) := by
  induction ws with
  | nil => exact List.pairwise_singleton _ v
  | cons w ws ih =>
      obtain ⟨above, rest⟩ := List.pairwise_cons.mp ascending
      simp only [insertAscending]
      split
      · rename_i smaller
        refine List.pairwise_cons.mpr ⟨?_, ascending⟩
        intro u member
        rcases List.mem_cons.mp member with rfl | inside
        · exact smaller
        · exact Nat.lt_trans smaller (above u inside)
      · rename_i notSmaller
        split
        · exact ascending
        · rename_i different
          refine List.pairwise_cons.mpr ⟨?_, ih rest⟩
          intro u member
          rcases mem_insertAscending.mp member with rfl | inside
          · exact Nat.lt_of_le_of_ne (Nat.le_of_not_lt notSmaller) (Ne.symm different)
          · exact above u inside

/-- A finite set of variables. -/
structure VarSet where
  toList : List Var
  ascending : toList.Pairwise (· < ·)

namespace VarSet

instance : DecidableEq VarSet := fun s t =>
  decidable_of_iff (s.toList = t.toList) ⟨fun h => by cases s; cases t; cases h; rfl, fun h => h ▸ rfl⟩

instance : Membership Var VarSet := ⟨fun s v => v ∈ s.toList⟩

instance (v : Var) (s : VarSet) : Decidable (v ∈ s) := inferInstanceAs (Decidable (v ∈ s.toList))

theorem mem_def {v : Var} {s : VarSet} : v ∈ s ↔ v ∈ s.toList := Iff.rfl

/-- The set without members. -/
def empty : VarSet := ⟨[], .nil⟩

instance : EmptyCollection VarSet := ⟨empty⟩

instance : Inhabited VarSet := ⟨empty⟩

def insert (s : VarSet) (v : Var) : VarSet :=
  ⟨insertAscending v s.toList, pairwise_insertAscending v s.ascending⟩

def insertAll (s : VarSet) (vs : List Var) : VarSet := vs.foldl insert s

def ofList (vs : List Var) : VarSet := empty.insertAll vs

def singleton (v : Var) : VarSet := ⟨[v], List.pairwise_singleton _ v⟩

def union (s t : VarSet) : VarSet := s.insertAll t.toList

def filter (s : VarSet) (keep : Var → Bool) : VarSet :=
  ⟨s.toList.filter keep, s.ascending.filter keep⟩

def erase (s : VarSet) (v : Var) : VarSet := s.filter (· ≠ v)

def isEmpty (s : VarSet) : Bool := s.toList.isEmpty

def size (s : VarSet) : Nat := s.toList.length

/-- The smallest member. -/
def min? (s : VarSet) : Option Var := s.toList.head?

/-- Whether every listed variable is a member. -/
def containsAll (s : VarSet) (vs : List Var) : Bool := vs.all fun v => decide (v ∈ s)

def isSubset (s t : VarSet) : Bool := t.containsAll s.toList

/-- The images of all members, or nothing if one of them has no image. -/
def mapM? (s : VarSet) (f : Var → Option Var) : Option VarSet :=
  (s.toList.mapM f).map ofList

/-- The members between commas, in braces. -/
def text (s : VarSet) : String := Text.braced (s.toList.map Var.text)

@[simp] theorem not_mem_empty (v : Var) : v ∉ empty := by simp [mem_def, empty]

@[simp] theorem mem_insert {u v : Var} {s : VarSet} : u ∈ s.insert v ↔ u = v ∨ u ∈ s :=
  mem_insertAscending

@[simp] theorem mem_insertAll {u : Var} {s : VarSet} {vs : List Var} :
    u ∈ s.insertAll vs ↔ u ∈ s ∨ u ∈ vs := by
  induction vs generalizing s with
  | nil => simp [insertAll]
  | cons v vs ih =>
      have step : s.insertAll (v :: vs) = (s.insert v).insertAll vs := rfl
      rw [step, ih]
      simp only [mem_insert, List.mem_cons]
      grind

@[simp] theorem mem_ofList {u : Var} {vs : List Var} : u ∈ ofList vs ↔ u ∈ vs := by
  simp [ofList]

@[simp] theorem mem_singleton {u v : Var} : u ∈ singleton v ↔ u = v := by
  simp [mem_def, singleton]

@[simp] theorem mem_union {u : Var} {s t : VarSet} : u ∈ s.union t ↔ u ∈ s ∨ u ∈ t := by
  simp [union, mem_def (s := t)]

@[simp] theorem mem_filter {u : Var} {s : VarSet} {keep : Var → Bool} :
    u ∈ s.filter keep ↔ u ∈ s ∧ keep u = true := by
  simp [mem_def, filter]

@[simp] theorem mem_erase {u v : Var} {s : VarSet} : u ∈ s.erase v ↔ u ∈ s ∧ u ≠ v := by
  simp [erase]

theorem containsAll_iff {s : VarSet} {vs : List Var} :
    s.containsAll vs = true ↔ ∀ v ∈ vs, v ∈ s := by
  simp [containsAll]

theorem isSubset_iff {s t : VarSet} : s.isSubset t = true ↔ ∀ v ∈ s, v ∈ t := by
  simp [isSubset, containsAll_iff, mem_def (s := s)]

end VarSet

/-- Appends the variables that are not listed yet. -/
def appendNew (vs others : List Var) : List Var :=
  others.foldl (fun seen v => if v ∈ seen then seen else seen ++ [v]) vs

/-- Keeps the first occurrence of each variable. -/
def distinct (vs : List Var) : List Var := appendNew [] vs

/-- Variables between commas, in square brackets. -/
def varsText (vs : List Var) : String := Text.bracketed (vs.map Var.text)

/-- A renaming of variables. Of two entries for one variable the last counts. -/
abbrev Renaming := List (Var × Var)

/-- The new name of a variable, if it has one. -/
def Renaming.find? (renames : Renaming) (v : Var) : Option Var :=
  renames.reverse.lookup v

/-- The variable under its new name. -/
def Renaming.apply (renames : Renaming) (v : Var) : Var := (renames.find? v).getD v

end QueryOptimizer
