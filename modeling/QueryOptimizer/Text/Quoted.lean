import QueryOptimizer.Text.Printable

/-! # Quoted names

Names of sources, sinks and commands are shown between double quotes. A quote, a backslash and
a character that would not print are escaped, so that a quoted name always fits on one line.
-/

namespace QueryOptimizer.Text

/-- A character as it appears between quotes. -/
def escapeChar (c : Char) : List Char :=
  if c = '"' then ['\\', '"']
  else if c = '\\' then ['\\', '\\']
  else if c = '\n' then ['\\', 'n']
  else if c = '\t' then ['\\', 't']
  else if c = '\r' then ['\\', 'r']
  else if c = '\x00' then ['\\', '0']
  else if isPrintable c then [c]
  else ['\\', 'u', '\x7b'] ++ Nat.toDigits 16 c.toNat ++ ['\x7d']

/-- A name between double quotes. -/
def quoted (name : String) : String :=
  String.ofList ('"' :: name.toList.flatMap escapeChar ++ ['"'])

end QueryOptimizer.Text
