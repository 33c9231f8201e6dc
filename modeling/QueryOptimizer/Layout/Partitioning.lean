import QueryOptimizer.Layout.Local

/-! # Partitionings -/

namespace QueryOptimizer

/-- The machines that hold the partitions. -/
inductive Domain where
  | default
  /-- Named machines, in ascending order. -/
  | locations (names : List String)
  deriving DecidableEq, Repr

namespace Domain

/-- Puts a name in its place in an ascending list that may already hold it. -/
def insertName (name : String) : List String → List String
  | [] => [name]
  | other :: rest =>
      if name < other then name :: other :: rest
      else if name = other then other :: rest
      else other :: insertName name rest

/-- The domain of the named machines. -/
def ofNames (names : List String) : Domain :=
  locations (names.foldl (fun sorted name => insertName name sorted) [])

def text : Domain → String
  | default => "default"
  | locations names => Text.bracketed names

end Domain

/-- How tuples are distributed over partitions. -/
inductive Partitioning where
  | unpartitioned
  | random (domain : Option Domain)
  /-- Every partition holds all tuples. -/
  | broadcast (domain : Option Domain)
  /-- The partition is a function of the columns. -/
  | hash (columns : List Var) (domain : Option Domain)
  /-- Partitions hold consecutive ranges of the order of the columns. -/
  | range (columns : List OrderColumn) (domain : Option Domain)
  deriving DecidableEq, Repr

namespace Partitioning

def domain? : Partitioning → Option Domain
  | unpartitioned => none
  | random domain | broadcast domain | hash _ domain | range _ domain => domain

/-- Changes the domain. An unpartitioned stream has none. -/
def mapDomain (f : Option Domain → Option Domain) : Partitioning → Partitioning
  | unpartitioned => unpartitioned
  | random domain => random (f domain)
  | broadcast domain => broadcast (f domain)
  | hash columns domain => hash columns (f domain)
  | range columns domain => range columns (f domain)

def withDomain (p : Partitioning) (domain : Domain) : Partitioning :=
  p.mapDomain fun _ => some domain

/-- Sets the domain if it is open. -/
def fillDomain (p : Partitioning) (domain : Domain) : Partitioning :=
  p.mapDomain fun current => current.or (some domain)

/-- Whether each partition holds its own part of the tuples. -/
def isPartitioned : Partitioning → Bool
  | unpartitioned | broadcast _ => false
  | _ => true

def columns : Partitioning → List Var
  | hash columns _ => columns
  | range columns _ => columns.map (·.column)
  | _ => []

/-- The partitioning over other columns, or nothing if one of them has no image. -/
def mapColumns? (f : Var → Option Var) : Partitioning → Option Partitioning
  | hash columns domain => (columns.mapM f).map (hash · domain)
  | range columns domain =>
      (columns.mapM fun c => (f c.column).map fun column => { c with column := column }).map
        (range · domain)
  | p => some p

/-- Keeps the first entry of each column. -/
def distinctColumns (columns : List OrderColumn) : List OrderColumn :=
  columns.foldl
    (fun seen c => if seen.any (·.column = c.column) then seen else seen ++ [c]) []

/-- Normal form: representatives in place of equivalent columns, without constants and without
    repeated columns. -/
def normalize (facts : Facts) : Partitioning → Partitioning
  | hash columns domain =>
      hash (distinct ((columns.filter fun v => !facts.equivalence.isConstant v).map
        facts.equivalence.representativeVar)) domain
  | range columns domain =>
      range (distinctColumns ((columns.filter fun c => !facts.equivalence.isConstant c.column).map
        fun c => { c with column := facts.equivalence.representativeVar c.column })) domain
  | p => p

/-- Whether the columns that were delivered do for the required ones. With `mayExpand` fewer
    columns are enough: tuples that agree on the required ones agree on these. -/
def coversColumns (mayExpand : Bool) (required delivered : List Var) : Bool :=
  let required := VarSet.ofList required
  let delivered := VarSet.ofList delivered
  if mayExpand then !delivered.isEmpty && delivered.isSubset required else delivered = required

/-- The same for ordered columns: with `mayExpand` leading columns are enough. -/
def coversRange (mayExpand : Bool) (required delivered : List OrderColumn) : Bool :=
  if mayExpand then !delivered.isEmpty && delivered.isPrefixOf required else required = delivered

/-- Whether the kinds and columns of normalized partitionings fit. -/
def fits (mayExpand : Bool) : (required delivered : Partitioning) → Bool
  | random _, _ => true
  | unpartitioned, unpartitioned => true
  | broadcast _, broadcast _ => true
  | hash required _, hash delivered _ => coversColumns mayExpand required delivered
  | hash required _, range delivered _ =>
      coversColumns mayExpand required (delivered.map (·.column))
  | range required _, range delivered _ => coversRange mayExpand required delivered
  | _, _ => false

/-- Whether two domains agree. An open domain agrees with every domain. -/
def sameDomain (required delivered : Option Domain) : Bool :=
  match required, delivered with
  | some r, some d => r = d
  | _, _ => true

/-- Whether tuples partitioned as delivered are partitioned as required. -/
def satisfiedBy (required delivered : Partitioning) (mayExpand : Bool) (facts : Facts) : Bool :=
  sameDomain required.domain? delivered.domain?
    && fits mayExpand (required.normalize facts) (delivered.normalize facts)

def text : Partitioning → String
  | unpartitioned => "UNPARTITIONED"
  | random _ => "RANDOM"
  | broadcast _ => "BROADCAST"
  | hash columns _ => "HASH(" ++ Text.commas (columns.map Var.text) ++ ")"
  | range columns _ => "RANGE(" ++ Text.commas (columns.map OrderColumn.text) ++ ")"

end Partitioning

end QueryOptimizer
