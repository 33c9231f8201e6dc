import QueryOptimizer.Yaml.Cursor

/-! # Quoted scalars

A scalar in quotes may go over several lines. Between single quotes only the quote is special: it
is written twice. Between double quotes a backslash starts an escape.
-/

namespace QueryOptimizer.Yaml

/-- The part of a single quoted scalar up to a gap or the closing quote, and the text behind it. -/
def singleWord : List Char → List Char × List Char
  | '\'' :: '\'' :: rest =>
      let (word, rest) := singleWord rest
      ('\'' :: word, rest)
  | c :: rest =>
      if c = '\'' || isGap c then ([], c :: rest)
      else
        let (word, rest) := singleWord rest
        (c :: word, rest)
  | [] => ([], [])

/-- The character behind a backslash that stands for another one. -/
def escape? : Char → Option Char
  | '0' => some '\x00'
  | 'a' => some '\x07'
  | 'b' => some '\x08'
  | 't' => some '\t'
  | '\t' => some '\t'
  | 'n' => some '\n'
  | 'v' => some '\x0b'
  | 'f' => some '\x0c'
  | 'r' => some '\r'
  | 'e' => some '\x1b'
  | ' ' => some ' '
  | '"' => some '"'
  | '/' => some '/'
  | '\\' => some '\\'
  | 'N' => some '\u0085'
  | '_' => some '\u00a0'
  | 'L' => some '\u2028'
  | 'P' => some '\u2029'
  | _ => none

/-- The character with a number in hexadecimal digits. -/
def charOfHex? (digits : List Char) : Option Char := do
  let code ← digits.foldlM (fun code c => return 16 * code + (← hexDigit? c)) 0
  if code < 0xd800 || (0xdfff < code && code ≤ 0x10ffff) then some (Char.ofNat code) else none

/-- The part of a double quoted scalar up to a gap or the closing quote, and the text behind it.
    The part also ends, as the flag tells, with a line break that is escaped. -/
def doubleWord : List Char → Option (List Char × Bool × List Char)
  | '\\' :: 'x' :: a :: b :: rest => do
      let c ← charOfHex? [a, b]
      let (word, more) ← doubleWord rest
      return (c :: word, more)
  | '\\' :: 'u' :: a :: b :: c :: d :: rest => do
      let c ← charOfHex? [a, b, c, d]
      let (word, more) ← doubleWord rest
      return (c :: word, more)
  | '\\' :: 'U' :: a :: b :: c :: d :: e :: f :: g :: h :: rest => do
      let c ← charOfHex? [a, b, c, d, e, f, g, h]
      let (word, more) ← doubleWord rest
      return (c :: word, more)
  | '\\' :: c :: rest =>
      if isBreak c then some ([], true, rest)
      else do
        let c ← escape? c
        let (word, more) ← doubleWord rest
        return (c :: word, more)
  | c :: rest =>
      if c = '\\' then none
      else if c = '"' || isGap c then some ([], false, c :: rest)
      else do
        let (word, more) ← doubleWord rest
        return (c :: word, more)
  | [] => some ([], false, [])

/-- The scalar up to its closing quote, and the cursor behind the quote. The parts before and after
    a gap are not empty together, so that the length of the text is enough fuel. -/
def quotedWithin (quote : Char) : Nat → Cursor → Option (List Char × Cursor)
  | 0, _ => none
  | fuel + 1, cursor => do
      if cursor.isAtMarker || cursor.rest.isEmpty then none
      else
        let (word, isEscaped, rest) ← if quote = '"' then doubleWord cursor.rest
          else
            let (word, rest) := singleWord cursor.rest
            some (word, false, rest)
        if rest.head? = some quote then some (word, cursor.moveTo (rest.drop 1))
        else
          let gap := rest.takeWhile isGap
          let (text, cursor) ← quotedWithin quote fuel (cursor.moveTo (rest.dropWhile isGap))
          return (word ++ (if isEscaped then gap.filter isBreak else foldGap gap) ++ text, cursor)

/-- The scalar that starts behind an opening quote. -/
def quoted? (quote : Char) (cursor : Cursor) : Option (String × Cursor) :=
  (quotedWithin quote (cursor.rest.length + 1) cursor).map fun (text, cursor) =>
    (String.ofList text, cursor)

end QueryOptimizer.Yaml
