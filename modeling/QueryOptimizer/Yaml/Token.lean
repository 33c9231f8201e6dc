import QueryOptimizer.Yaml.Block
import QueryOptimizer.Yaml.Plain
import QueryOptimizer.Yaml.Quoted
import QueryOptimizer.Yaml.Tag

/-! # Tokens

A text is cut into tokens. Where blocks start and end is told by columns; there are tokens for it
that nothing is written for. The token of a key comes before the key, although only the colon
behind it makes it one: it is put there when the colon is found.
-/

namespace QueryOptimizer.Yaml

/-- How a scalar is written. -/
inductive Style where
  | plain
  | quoted
  | literal
  | folded
  deriving DecidableEq, Repr

inductive Token where
  | directive (directive : Directive)
  | documentStart
  | documentEnd
  | blockSequenceStart
  | blockMappingStart
  | blockEnd
  | flowSequenceStart
  | flowSequenceEnd
  | flowMappingStart
  | flowMappingEnd
  | blockEntry
  | flowEntry
  | key
  | value
  | alias (name : String)
  | anchor (name : String)
  | tag (tag : TagName)
  | scalar (style : Style) (text : String)

/-- A node that is a key if a colon follows it on the same line. -/
structure KeyPlace where
  /-- How many tokens come before it. -/
  position : Nat
  mark : Mark
  /-- Nothing but a key may stand here. -/
  isRequired : Bool

namespace KeyPlace

/-- A key ends on its line, within 1024 bytes. -/
def isStale (k : KeyPlace) (m : Mark) : Bool :=
  k.mark.line < m.line || k.mark.offset + 1024 < m.offset

/-- What is left of the place once a key can no longer be there. -/
def drop? : Option KeyPlace → Option (Option KeyPlace)
  | some k => if k.isRequired then none else some none
  | none => some none

/-- What is left of the place at a later mark. -/
def keep? (m : Mark) (k? : Option KeyPlace) : Option (Option KeyPlace) :=
  if (k?.map (·.isStale m)).getD false then drop? k? else some k?

end KeyPlace

/-- The parts of a line between tokens. -/
inductive LinePart where
  | start
  | middle
  | comment
  deriving DecidableEq

/-- The state of reading tokens. -/
structure Reader where
  cursor : Cursor
  /-- The tokens so far, the last one first. -/
  tokens : List Token := []
  /-- The least column of what belongs to the innermost block. -/
  margin : Nat := 0
  /-- The margins of the blocks around it. -/
  margins : List Nat := []
  /-- Whether a key may start here. -/
  allowsKey : Bool := true
  /-- Where the last key may have started, inside the innermost brackets. -/
  key? : Option KeyPlace := none
  /-- The same for the brackets around them, and for the text outside all brackets. -/
  outerKeys : List (Option KeyPlace) := []

namespace Reader

def isFlow (r : Reader) : Bool := !r.outerKeys.isEmpty

def push (r : Reader) (token : Token) : Reader := { r with tokens := token :: r.tokens }

/-- Puts a token where there are `position` tokens before it. -/
def insert (r : Reader) (position : Nat) (token : Token) : Reader :=
  let behind := r.tokens.length - position
  { r with tokens := r.tokens.take behind ++ token :: r.tokens.drop behind }

/-- Leaves the blocks whose margin is beyond `bound`. -/
def closeBlocks (r : Reader) (bound : Nat) : Reader :=
  if r.isFlow then r else go r.margins r
where
  go : List Nat → Reader → Reader
    | [], r => r
    | outer :: outers, r =>
        if bound < r.margin then go outers { r.push .blockEnd with margin := outer, margins := outers }
        else r

/-- Enters a block at a column, unless it is entered already. -/
def openBlock (r : Reader) (column position : Nat) (token : Token) : Reader :=
  if r.isFlow || column < r.margin then r
  else { r.insert position token with margin := column + 1, margins := r.margin :: r.margins }

/-- Enters a block that starts with the next token. -/
def openBlockHere (r : Reader) (token : Token) : Reader :=
  r.openBlock r.cursor.mark.column r.tokens.length token

/-- Gives up the key that may have started inside the innermost brackets. -/
def dropKey (r : Reader) : Option Reader :=
  (KeyPlace.drop? r.key?).map fun key? => { r with key? := key? }

/-- Remembers that a key may start here. -/
def markKey (r : Reader) : Option Reader :=
  if r.allowsKey then do
    let r ← r.dropKey
    let isRequired := !r.isFlow && r.margin = r.cursor.mark.column + 1
    return { r with key? := some ⟨r.tokens.length, r.cursor.mark, isRequired⟩ }
  else some r

/-- Gives up the keys that started too far away. -/
def dropStaleKeys (r : Reader) : Option Reader := do
  let m := r.cursor.mark
  return { r with
    key? := ← KeyPlace.keep? m r.key?, outerKeys := ← r.outerKeys.mapM (KeyPlace.keep? m) }

/-- The text behind blanks, comments and line breaks, and whether a key may start there. Outside
    brackets a key may start on every line. A tab is no blank where a key may start. A mark of the
    byte order counts as a blank where a line starts. -/
def skipGaps (isFlow : Bool) (part : LinePart) (allowsKey : Bool) : List Char → Bool × List Char
  | [] => (allowsKey, [])
  | c :: rest =>
      if isBreak c then skipGaps isFlow .start (allowsKey || !isFlow) rest
      else if part = .comment then skipGaps isFlow .comment allowsKey rest
      else if c = ' ' || (c = '\t' && (isFlow || !allowsKey)) || (c = '\ufeff' && part = .start) then
        skipGaps isFlow .middle allowsKey rest
      else if c = '#' then skipGaps isFlow .comment allowsKey rest
      else (allowsKey, c :: rest)

/-- The reader in front of the next token. -/
def toNext (r : Reader) : Option Reader := do
  let part := if r.cursor.mark.column = 0 then .start else .middle
  let (allowsKey, rest) := skipGaps r.isFlow part r.allowsKey r.cursor.rest
  let r ← { r with allowsKey := allowsKey, cursor := r.cursor.moveTo rest }.dropStaleKeys
  return r.closeBlocks (r.cursor.mark.column + 1)

/-- Adds a token that ends where the text is `rest`. -/
def take (r : Reader) (token : Token) (rest : List Char) (allowsKey : Bool) : Reader :=
  { r.push token with cursor := r.cursor.moveTo rest, allowsKey := allowsKey }

/-- Adds a token between documents. -/
def takeMarker (r : Reader) (token : Token) (rest : List Char) : Option Reader := do
  let r ← (r.closeBlocks 0).dropKey
  return r.take token rest false

/-- Adds an opening bracket. -/
def openFlow (r : Reader) (token : Token) (rest : List Char) : Option Reader := do
  let r ← r.markKey
  return { r.take token rest true with key? := none, outerKeys := r.key? :: r.outerKeys }

/-- Adds a closing bracket. -/
def closeFlow (r : Reader) (token : Token) (rest : List Char) : Option Reader := do
  let r ← r.dropKey
  let r := match r.outerKeys with
    | [] => r
    | key? :: outerKeys => { r with key? := key?, outerKeys := outerKeys }
  return r.take token rest false

/-- Adds the mark of an item or of a key that is not followed by a colon on its line. -/
def takeEntry (r : Reader) (block token : Token) (rest : List Char) (allowsKey : Bool) :
    Option Reader := do
  if !r.isFlow && !r.allowsKey then none
  else
    let r ← (r.openBlockHere block).dropKey
    return r.take token rest allowsKey

/-- Adds the colon behind a key. -/
def takeColon (r : Reader) (rest : List Char) : Option Reader :=
  match r.key? with
  | some k =>
      let r := (r.insert k.position .key).openBlock k.mark.column k.position .blockMappingStart
      some { r.take .value rest false with key? := none }
  | none =>
      if !r.isFlow && !r.allowsKey then none
      else some ((r.openBlockHere .blockMappingStart).take .value rest (!r.isFlow))

/-- Adds the next token, which starts here. -/
def takeToken (r : Reader) : Option Reader := do
  let cursor := r.cursor
  let start (rest : List Char) := cursor.moveTo rest
  match cursor.rest with
  | [] => none
  | c :: rest =>
      if c = '%' && cursor.mark.column = 0 then
        let (directive, rest) ← Directive.read? rest
        r.takeMarker (.directive directive) rest
      else if cursor.isAtMarker then
        r.takeMarker (if c = '-' then .documentStart else .documentEnd) (rest.drop 2)
      else if c = '[' then r.openFlow .flowSequenceStart rest
      else if c = '\x7b' then r.openFlow .flowMappingStart rest
      else if c = ']' then r.closeFlow .flowSequenceEnd rest
      else if c = '\x7d' then r.closeFlow .flowMappingEnd rest
      else if c = ',' then return (← r.dropKey).take .flowEntry rest true
      else if c = '-' && endsWord rest then r.takeEntry .blockSequenceStart .blockEntry rest true
      else if c = '?' && (r.isFlow || endsWord rest) then
        r.takeEntry .blockMappingStart .key rest (!r.isFlow)
      else if c = ':' && (r.isFlow || endsWord rest) then r.takeColon rest
      else if c = '*' || c = '&' then
        let (name, rest) ← anchor? rest
        return (← r.markKey).take (if c = '*' then .alias name else .anchor name) rest false
      else if c = '!' then
        let (tag, rest) ← tag? r.isFlow (c :: rest)
        return (← r.markKey).take (.tag tag) rest false
      else if (c = '|' || c = '>') && !r.isFlow then
        let (text, rest) ← block? (c = '|') r.margin rest
        return (← r.dropKey).take (.scalar (if c = '|' then .literal else .folded) text) rest true
      else if c = '\'' || c = '"' then
        let (text, behind) ← quoted? c (start rest)
        return (← r.markKey).take (.scalar .quoted text) behind.rest false
      else if startsPlain r.isFlow (c :: rest) then
        let (text, endsLine, behind) ← plain? r.isFlow r.margin cursor
        return (← r.markKey).take (.scalar .plain text) behind.rest endsLine
      else none

/-- All tokens. Every one but those between blocks has a character, so that the length of the text
    is enough fuel. -/
def readAll : Nat → Reader → Option (List Token)
  | 0, _ => none
  | fuel + 1, r => do
      let r ← r.toNext
      if r.cursor.rest.isEmpty then
        let r ← (r.closeBlocks 0).dropKey
        return r.tokens.reverse
      else readAll fuel (← r.takeToken)

end Reader

/-- The tokens of a text, nothing if it cannot be cut into tokens. -/
def Token.ofText? (text : String) : Option (List Token) :=
  let cs := unifyBreaks text.toList
  if text.toList.all isAllowed then Reader.readAll (cs.length + 1) { cursor := { rest := cs } }
  else none

end QueryOptimizer.Yaml
