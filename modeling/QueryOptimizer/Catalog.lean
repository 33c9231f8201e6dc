import QueryOptimizer.Failure
import QueryOptimizer.Layout.Basic

/-! # Catalog of data sources -/

namespace QueryOptimizer

/-- How the tuples of a data source are distributed. -/
inductive SourcePartitioning where
  | unpartitioned
  | random
  | hashOnKey
  deriving DecidableEq, Repr

def SourcePartitioning.text : SourcePartitioning → String
  | unpartitioned => "Unpartitioned"
  | random => "Random"
  | hashOnKey => "HashOnPrimaryKey"

/-- The size of a data source. -/
structure Statistics where
  rows : Nat
  tupleBytes : Nat
  deriving DecidableEq, Repr

/-- A stored relation. -/
structure Source where
  name : String
  columns : List (String × DataType)
  /-- The columns of the primary key, by name. -/
  key : List String := []
  partitioning : SourcePartitioning := .unpartitioned
  domain : Domain := .default
  /-- Whether each partition is sorted by the primary key. -/
  isOrdered : Bool := false
  statistics : Option Statistics := none
  deriving DecidableEq, Repr

namespace Source

/-- Fails unless there is one variable for each column. -/
def checkArity (source : Source) (vs : List Var) : Except Failure Unit :=
  if vs.length = source.columns.length then .ok ()
  else .error (.boundColumns source.name vs.length source.columns.length)

/-- The variable bound to the column of that name, the first one if there are several. -/
def columnVar (source : Source) (vs : List Var) (column : String) : Except Failure Var :=
  match (source.columns.zip vs).find? fun entry => entry.1.1 = column with
  | some entry => .ok entry.2
  | none => .error (.unknownKeyColumn source.name column)

/-- The variables bound to the primary key. -/
def keyVars (source : Source) (vs : List Var) : Except Failure (List Var) := do
  source.checkArity vs
  source.key.mapM (source.columnVar vs)

/-- The types of the variables bound to the columns. -/
def columnTypes (source : Source) (vs : List Var) : Except Failure (List (Var × DataType)) := do
  source.checkArity vs
  return vs.zip (source.columns.map (·.2))

end Source

/-- The known data sources, the latest first. -/
structure Catalog where
  sources : List Source := []

namespace Catalog

instance : Inhabited Catalog := ⟨{}⟩

/-- Adds a source, which hides an earlier one of the same name. -/
def register (catalog : Catalog) (source : Source) : Catalog := ⟨source :: catalog.sources⟩

def find? (catalog : Catalog) (name : String) : Option Source :=
  catalog.sources.find? fun source => source.name = name

def find (catalog : Catalog) (name : String) : Except Failure Source :=
  match catalog.find? name with
  | some source => .ok source
  | none => .error (.unknownSource name)

/-- The primary key of a source determines its other columns. -/
def dependencies (catalog : Catalog) (name : String) (vs : List Var) :
    Except Failure (List Dependency) := do
  let keys ← (← catalog.find name).keyVars vs
  match keys, vs.filter fun v => decide (v ∉ keys) with
  | [], _ => return []
  | _, [] => return []
  | keys, others => return [.ofLists keys others]

/-- The layout in which a source is read. -/
def layout (catalog : Catalog) (name : String) (vs : List Var) : Except Failure Layout := do
  let source ← catalog.find name
  let keys ← source.keyVars vs
  let partitioning := match source.partitioning with
    | .unpartitioned => .unpartitioned
    | .random => .random (some source.domain)
    | .hashOnKey =>
        if keys.isEmpty then .random (some source.domain) else .hash keys (some source.domain)
  let properties := if source.isOrdered then keys.map fun key => .order ⟨key, .asc⟩ else []
  return ⟨some partitioning, properties⟩

def statistics? (catalog : Catalog) (name : String) : Option Statistics :=
  (catalog.find? name).bind (·.statistics)

end Catalog

end QueryOptimizer
