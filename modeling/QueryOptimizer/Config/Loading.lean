import QueryOptimizer.Config.Basic
import QueryOptimizer.Config.Number
import QueryOptimizer.Text.Quoted
import QueryOptimizer.Yaml.Document

/-! # Loading a configuration

A configuration is written as a mapping. What is not mentioned there has its default.
-/

namespace QueryOptimizer

/-- Why a configuration could not be loaded. -/
inductive ConfigError where
  | unreadable (path : String)
  | malformed (path : Option String)

namespace ConfigError

def message : ConfigError → String
  | unreadable path => "Failed to open optimizer config: " ++ Text.quoted path
  | malformed none => "Failed to parse optimizer config"
  | malformed (some path) => "Failed to parse optimizer config: " ++ Text.quoted path

end ConfigError

namespace Config

open Yaml (Document Place)

def natural? (d : Document) (place : Place) : Option Nat :=
  (d.numberText? "int" place).bind Number.natural?

def decimal? (d : Document) (place : Place) : Option Float :=
  (d.numberText? "float" place).bind Number.decimal?

/-- Reads the entries of a mapping into a record. Each key in `known` may be given once; other
    keys are ignored. -/
def readEntries {α : Type} (d : Document) (known : List String)
    (set : α → String → Place → Option α) (default : α) (place : Place) : Option α := do
  let entries ← d.entries? place
  let given := entries.filter fun entry => decide (entry.1 ∈ known)
  if (given.map (·.1)).Nodup then
    given.foldlM (fun record entry => set record entry.1 entry.2) default
  else none

def setMemory (d : Document) (memory : MemoryConfig) (key : String) (value : Place) :
    Option MemoryConfig :=
  match key with
  | "frame-size" => (natural? d value).map fun n => { memory with frameSize := n }
  | "max-frames-external-sort" => (natural? d value).map fun n => { memory with sortFrames := n }
  | "max-frames-for-join" => (natural? d value).map fun n => { memory with joinFrames := n }
  | "hash-join-fudge-factor" =>
      (decimal? d value).map fun x => { memory with hashTableFactor := x }
  | _ => none

def memoryKeys : List String :=
  ["frame-size", "max-frames-external-sort", "max-frames-for-join", "hash-join-fudge-factor"]

def setConfig (d : Document) (config : Config) (key : String) (value : Place) : Option Config :=
  match key with
  | "max-fixpoint-iterations" => (natural? d value).map fun n => { config with maxSweeps := n }
  | "max-sort-elimination-cascade" =>
      (natural? d value).map fun n => { config with maxSortRemovals := n }
  | "physical" =>
      (readEntries d memoryKeys (setMemory d) {} value).map fun memory =>
        { config with memory := memory }
  | _ => none

def configKeys : List String :=
  ["max-fixpoint-iterations", "max-sort-elimination-cascade", "physical"]

/-- The configuration that a text describes. -/
def parse (text : String) : Except ConfigError Config :=
  let config? := do
    let d ← Document.ofText? text
    readEntries d configKeys (setConfig d) {} d.root
  match config? with
  | some config => .ok config
  | none => .error (.malformed none)

end Config

end QueryOptimizer
