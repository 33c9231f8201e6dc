/-! # Listings

The shapes in which values are listed: items between commas, and named fields between braces.
-/

namespace QueryOptimizer.Text

/-- Items between commas, without brackets. -/
def commas (items : List String) : String :=
  ", ".intercalate items

/-- Items in square brackets. -/
def bracketed (items : List String) : String :=
  "[" ++ commas items ++ "]"

/-- Items in braces. -/
def braced (items : List String) : String :=
  "\x7b" ++ commas items ++ "\x7d"

/-- A name followed by its fields, or the name alone when there are none. -/
def record (name : String) (fields : List (String × String)) : String :=
  match fields with
  | [] => name
  | fields => name ++ " \x7b " ++ commas (fields.map fun field => field.1 ++ ": " ++ field.2) ++ " \x7d"

end QueryOptimizer.Text
