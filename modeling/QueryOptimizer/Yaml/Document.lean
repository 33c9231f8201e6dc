import QueryOptimizer.Yaml.Event

/-! # Documents

The nodes of a document, in which every alias is tied to an anchor. A place is the document from
one of its nodes on, so an alias inside the node that it stands for does no harm.
-/

namespace QueryOptimizer.Yaml

inductive Part where
  /-- The node with the anchor of this number. -/
  | alias (number : Nat)
  | scalar (tag : Option String) (style : Style) (text : String)
  | sequenceStart
  | mappingStart
  | stop

/-- The document from a node on. Each part comes with the number of its anchor. -/
abbrev Place := List (Option Nat × Part)

/-- The numbers of the anchors so far. -/
abbrev Anchors := List (String × Nat)

namespace Anchors

/-- Gives an anchor the next number, which is how many names there are. A name that is used again
    changes its number, but does not count again. -/
def define (anchors : Anchors) : Option String → Option Nat × Anchors
  | none => (none, anchors)
  | some name =>
      let number := anchors.length
      (some number, (name, number) :: anchors.filter fun entry => entry.1 ≠ name)

end Anchors

namespace Place

/-- Ties aliases to the anchors before them. -/
def ofEvents? (anchors : Anchors) : List Event → Option Place
  | [] => some []
  | .alias name :: rest => do
      let number ← anchors.lookup name
      return (none, .alias number) :: (← ofEvents? anchors rest)
  | .scalar anchor tag style text :: rest => do
      let (number, anchors) := anchors.define anchor
      return (number, .scalar tag style text) :: (← ofEvents? anchors rest)
  | .sequenceStart anchor :: rest => do
      let (number, anchors) := anchors.define anchor
      return (number, .sequenceStart) :: (← ofEvents? anchors rest)
  | .mappingStart anchor :: rest => do
      let (number, anchors) := anchors.define anchor
      return (number, .mappingStart) :: (← ofEvents? anchors rest)
  | .sequenceEnd :: rest | .mappingEnd :: rest => do
      return (none, .stop) :: (← ofEvents? anchors rest)

/-- The last place with an anchor of this number. -/
def anchored? (number : Nat) : Place → Option Place
  | [] => none
  | (number?, part) :: rest =>
      match anchored? number rest with
      | some place => some place
      | none => if number? = some number then some ((number?, part) :: rest) else none

/-- The places inside a collection, from behind its start on. -/
def children (depth : Nat) : Place → List Place
  | [] => []
  | (number?, part) :: rest =>
      let here := if depth = 0 then [(number?, part) :: rest] else []
      match part with
      | .sequenceStart | .mappingStart => here ++ children (depth + 1) rest
      | .alias _ | .scalar .. => here ++ children depth rest
      | .stop => if depth = 0 then [] else children (depth - 1) rest

end Place

/-- The nodes of a document. A text without a document has none. -/
structure Document where
  root : Place

namespace Document

/-- The document of a text, nothing if the text breaks the notation or has more documents. -/
def ofText? (text : String) : Option Document := do
  let events ← Event.ofTokens? (← Token.ofText? text)
  return ⟨← Place.ofEvents? [] events⟩

/-- The place that an alias stands for. -/
def target (d : Document) : Place → Place
  | (_, .alias number) :: _ => (d.root.anchored? number).getD []
  | place => place

/-- The text of a scalar that names an entry. -/
def keyText? (d : Document) (place : Place) : Option String :=
  match d.target place with
  | (_, .scalar _ _ text) :: _ => some text
  | _ => none

/-- The text of a scalar that is written like a number: without quotes, or as a literal block with
    the tag of its type. -/
def numberText? (d : Document) (type : String) (place : Place) : Option String :=
  match d.target place with
  | (_, .scalar _ .plain text) :: _ => some text
  | (_, .scalar tag .literal text) :: _ =>
      if tag = some ("tag:yaml.org,2002:" ++ type) then some text else none
  | _ => none

/-- Keys and values, which come in turn. -/
def pairs : List Place → List (Place × Place)
  | key :: value :: rest => (key, value) :: pairs rest
  | _ => []

/-- The entries of a mapping. A node that is left out has none. -/
def entries? (d : Document) (place : Place) : Option (List (String × Place)) :=
  match d.target place with
  | [] | (_, .scalar _ .plain "") :: _ => some []
  | (_, .mappingStart) :: rest =>
      (pairs (Place.children 0 rest)).mapM fun (key, value) => return (← d.keyText? key, value)
  | _ => none

end Document

end QueryOptimizer.Yaml
