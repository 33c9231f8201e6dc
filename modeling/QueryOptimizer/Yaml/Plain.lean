import QueryOptimizer.Yaml.Cursor

/-! # Plain scalars

A plain scalar has no quotes. It ends at a comment, at a colon behind which a word could not go
on, at a line of another block, and inside brackets also at a bracket or a comma.
-/

namespace QueryOptimizer.Yaml

/-- Whether a plain scalar starts here. -/
def startsPlain (isFlow : Bool) : List Char → Bool
  | [] => false
  | c :: rest =>
      if c = '-' then !(rest.head?.map isBlank).getD false
      else if c = '?' || c = ':' then !isFlow && !endsWord rest
      else !(isGap c || isFlowMark c
        || c ∈ ['#', '&', '*', '!', '|', '>', '\'', '"', '%', '@', '\x60'])

/-- Whether a colon here is followed by a character that may not stand behind it in brackets. -/
def isLostColon : List Char → Bool
  | ':' :: c :: _ => isFlowMark c || c = '?'
  | _ => false

/-- The part of a plain scalar up to a gap or its end, and the text behind it. -/
def plainWord (isFlow : Bool) : List Char → List Char × List Char
  | [] => ([], [])
  | c :: rest =>
      if isGap c || (c = ':' && endsWord rest)
          || (isFlow && (isFlowMark c || isLostColon (c :: rest))) then
        ([], c :: rest)
      else
        let (word, rest) := plainWord isFlow rest
        (c :: word, rest)

/-- Whether a gap has a tab in front of a column, on another line than its first. -/
def hasTabBefore (margin : Nat) : List Char → Bool
  | [] => false
  | c :: rest =>
      if isBreak c then go 0 rest else hasTabBefore margin rest
where
  go (column : Nat) : List Char → Bool
    | [] => false
    | c :: rest =>
        if isBreak c then go 0 rest
        else (c = '\t' && column < margin) || go (column + 1) rest

/-- The rest of a plain scalar after `gap`, the gap behind its end, and the cursor there. Each word
    but the last is followed by a gap, so that the length of the text is enough fuel. -/
def plainWithin (isFlow : Bool) (margin : Nat) :
    Nat → List Char → Cursor → Option (List Char × List Char × Cursor)
  | 0, _, _ => none
  | fuel + 1, gap, cursor => do
      if cursor.isAtMarker || cursor.rest.head? = some '#' then some ([], gap, cursor)
      else
        let (word, rest) := plainWord isFlow cursor.rest
        let cursor := cursor.moveTo rest
        if isFlow && isLostColon rest then none
        else if word.isEmpty then some ([], gap, cursor)
        else
          let read := foldGap gap ++ word
          let next := rest.takeWhile isGap
          let behind := cursor.moveTo (rest.dropWhile isGap)
          if hasTabBefore margin next then none
          else if next.isEmpty then some (read, [], cursor)
          else if !isFlow && behind.mark.column < margin then some (read, next, behind)
          else
            let (text, last, cursor) ← plainWithin isFlow margin fuel next behind
            return (read ++ text, last, cursor)

/-- The plain scalar that starts here, whether a line ends behind it, and the cursor there. All its
    lines but the first start at the margin or behind it, unless it stands in brackets. -/
def plain? (isFlow : Bool) (margin : Nat) (cursor : Cursor) : Option (String × Bool × Cursor) :=
  (plainWithin isFlow margin (cursor.rest.length + 1) [] cursor).map fun (text, gap, cursor) =>
    (String.ofList text, gap.any isBreak, cursor)

end QueryOptimizer.Yaml
