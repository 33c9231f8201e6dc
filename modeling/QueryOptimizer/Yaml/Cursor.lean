/-! # Places in a text

A text is read from its start to its end. Where a character stands decides what it means: its
column tells the block it belongs to, and a key has to end on the line it starts on.
-/

namespace QueryOptimizer.Yaml

/-- Whether a character may stand in a text at all. -/
def isAllowed (c : Char) : Bool :=
  let code := c.toNat
  c ∈ ['\t', '\n', '\r'] || (0x20 ≤ code && code ≤ 0x7e) || code = 0x85
    || (0xa0 ≤ code && code ≤ 0xfffd) || 0x10000 ≤ code

/-- The text with all line breaks but the separators of lines and paragraphs written as `\n`. -/
def unifyBreaks : List Char → List Char
  | '\r' :: '\n' :: rest => '\n' :: unifyBreaks rest
  | '\r' :: rest => '\n' :: unifyBreaks rest
  | '\u0085' :: rest => '\n' :: unifyBreaks rest
  | c :: rest => c :: unifyBreaks rest
  | [] => []

def isBreak (c : Char) : Bool := c ∈ ['\n', '\u2028', '\u2029']

def isBlank (c : Char) : Bool := c = ' ' || c = '\t'

/-- Whether a character stands between words. -/
def isGap (c : Char) : Bool := isBlank c || isBreak c

/-- Whether a word ends in front of this text. -/
def endsWord : List Char → Bool
  | [] => true
  | c :: _ => isGap c

/-- The brackets and commas of collections in brackets. -/
def isFlowMark (c : Char) : Bool := c ∈ [',', '[', ']', '\x7b', '\x7d']

/-- The characters of anchors, handles of tags and directives. -/
def isNameChar (c : Char) : Bool := c.isAlphanum || c = '_' || c = '-'

def hexDigit? (c : Char) : Option Nat :=
  if c.isDigit then some (c.toNat - '0'.toNat)
  else if 'a' ≤ c ∧ c ≤ 'f' then some (c.toNat - 'a'.toNat + 10)
  else if 'A' ≤ c ∧ c ≤ 'F' then some (c.toNat - 'A'.toNat + 10)
  else none

/-- The text behind blanks and a comment, if they are all that is left of the line. -/
def afterLine? (cs : List Char) : Option (List Char) :=
  let rest := cs.dropWhile isBlank
  let rest := if rest.head? = some '#' then rest.dropWhile (!isBreak ·) else rest
  match rest with
  | [] => some []
  | c :: rest => if isBreak c then some rest else none

/-- The line breaks of a gap between two words, as they count in a scalar: one break stands for a
    space, and of several the first one does not count. Blanks around a break do not count. -/
def foldGap (gap : List Char) : List Char :=
  match gap.filter isBreak with
  | [] => gap
  | ['\n'] => [' ']
  | '\n' :: breaks => breaks
  | breaks => breaks

/-- A place in a text. -/
structure Mark where
  /-- How many bytes come before it. -/
  offset : Nat := 0
  line : Nat := 0
  column : Nat := 0

/-- The place behind a character. -/
def Mark.after (m : Mark) (c : Char) : Mark :=
  if isBreak c then ⟨m.offset + c.utf8Size, m.line + 1, 0⟩
  else ⟨m.offset + c.utf8Size, m.line, m.column + 1⟩

/-- A place, and the text from there on. -/
structure Cursor where
  mark : Mark := {}
  rest : List Char

namespace Cursor

/-- The cursor at a later place, where the text is `rest`. -/
def moveTo (c : Cursor) (rest : List Char) : Cursor :=
  ⟨(c.rest.take (c.rest.length - rest.length)).foldl Mark.after c.mark, rest⟩

/-- Whether a line that starts or ends a document is here. -/
def isAtMarker (c : Cursor) : Bool :=
  c.mark.column = 0 && (c.rest.take 3 = ['-', '-', '-'] || c.rest.take 3 = ['.', '.', '.'])
    && endsWord (c.rest.drop 3)

end Cursor

end QueryOptimizer.Yaml
