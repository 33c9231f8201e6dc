import QueryOptimizer.Yaml.Cursor

/-! # Block scalars

A block scalar is made of the lines that follow its mark. A literal one keeps the line breaks, a
folded one joins lines by spaces. What happens to the breaks behind the last line is said behind
the mark.
-/

namespace QueryOptimizer.Yaml

/-- Which of the breaks behind the last line are kept. -/
inductive Chomping where
  | strip
  | clip
  | keep
  deriving DecidableEq, Repr

/-- What stands behind the mark of a block scalar. -/
structure BlockHeader where
  chomping : Chomping := .clip
  /-- How far the lines are indented, if that is not told by the first one. -/
  indent? : Option Nat := none

namespace BlockHeader

def chomping? : List Char → Option (Chomping × List Char)
  | '+' :: rest => some (.keep, rest)
  | '-' :: rest => some (.strip, rest)
  | _ => none

def digit? : List Char → Option (Nat × List Char)
  | c :: rest => if c.isDigit then some (c.toNat - '0'.toNat, rest) else none
  | [] => none

/-- The header behind a mark, and the text from the next line on. -/
def read? (cs : List Char) : Option (BlockHeader × List Char) := do
  let (chomping, indent?, rest) := match chomping? cs, digit? cs with
    | some (chomping, rest), _ =>
        match digit? rest with
        | some (n, rest) => (chomping, some n, rest)
        | none => (chomping, none, rest)
    | none, some (n, rest) =>
        match chomping? rest with
        | some (chomping, rest) => (chomping, some n, rest)
        | none => (.clip, some n, rest)
    | none, none => (.clip, none, cs)
  if indent? = some 0 then none else some (⟨chomping, indent?⟩, ← afterLine? rest)

end BlockHeader

/-- Empty lines and the indentation of the next line. -/
structure BlockGap where
  breaks : List Char
  column : Nat
  /-- The largest column of a line. -/
  widest : Nat
  rest : List Char

/-- The gap at the start of a line. Without a limit all spaces belong to it. A tab is refused where
    a space could stand. -/
def blockGap? (limit : Option Nat) (column widest : Nat) : List Char → Option BlockGap
  | [] => some ⟨[], column, max widest column, []⟩
  | c :: rest =>
      let isOpen := match limit with
        | none => true
        | some n => column < n
      if c = ' ' && isOpen then blockGap? limit (column + 1) widest rest
      else if c = '\t' && isOpen then none
      else if isBreak c then
        (blockGap? limit 0 (max widest column) rest).map fun gap =>
          { gap with breaks := c :: gap.breaks }
      else some ⟨[], column, max widest column, c :: rest⟩

/-- The lines of a scalar that are indented by `indent`, from the first one on. Before it come the
    break that ends the line before, if there is one, and empty lines. Every line has a character,
    so that the length of the text is enough fuel. -/
def blockLines (isLiteral : Bool) (chomping : Chomping) (indent : Nat) :
    Nat → (lastBreak : List Char) → (wasBlank : Bool) → BlockGap → Option (List Char × List Char)
  | 0, _, _, _ => none
  | fuel + 1, lastBreak, wasBlank, gap => do
      let first? := gap.rest.head?
      if gap.column ≠ indent || first?.isNone then
        let kept := match chomping with
          | .strip => []
          | .clip => lastBreak
          | .keep => lastBreak ++ gap.breaks
        some (kept, gap.rest)
      else
        let isBlank := (first?.map isBlank).getD false
        let joint :=
          if !isLiteral && lastBreak = ['\n'] && !wasBlank && !isBlank then
            if gap.breaks.isEmpty then [' '] else []
          else lastBreak
        let line := gap.rest.takeWhile (!isBreak ·)
        let rest := gap.rest.drop line.length
        let next ← blockGap? (some indent) 0 0 (rest.drop 1)
        let (text, rest) ← blockLines isLiteral chomping indent fuel (rest.take 1) isBlank next
        return (joint ++ gap.breaks ++ line ++ text, rest)

/-- The block scalar behind its mark, and the text after it. Its lines start at the margin or
    behind it. -/
def block? (isLiteral : Bool) (margin : Nat) (cs : List Char) : Option (String × List Char) := do
  let (header, rest) ← BlockHeader.read? cs
  let limit := header.indent?.map (margin - 1 + ·)
  let gap ← blockGap? limit 0 0 rest
  let indent := limit.getD (max gap.widest (max margin 1))
  let (text, rest) ←
    blockLines isLiteral header.chomping indent (rest.length + 1) [] false gap
  return (String.ofList text, rest)

end QueryOptimizer.Yaml
