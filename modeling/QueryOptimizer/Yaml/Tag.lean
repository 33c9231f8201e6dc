import QueryOptimizer.Yaml.Cursor

/-! # Tags, anchors and directives

A tag says what kind of value a node is. It is written in full between angle brackets, or as a
handle and a suffix, where the handle stands for the start of the tag.
-/

namespace QueryOptimizer.Yaml

/-- A tag as it is written. A tag without a handle is complete. -/
structure TagName where
  handle : String
  suffix : String

/-- The characters of a tag. Commas and square brackets only belong to a tag that is written in
    full. -/
def isTagChar (isFull : Bool) (c : Char) : Bool :=
  isNameChar c || c ∈ [';', '/', '?', ':', '@', '&', '=', '+', '$', '.', '!', '~', '*', '\'', '(', ')']
    || (isFull && c ∈ [',', '[', ']'])

/-- How many octets follow the first octet of a character. -/
def followers? (octet : Nat) : Option Nat :=
  if octet < 0x80 then some 0
  else if octet / 0x20 = 6 then some 1
  else if octet / 0x10 = 14 then some 2
  else if octet / 0x08 = 30 then some 3
  else none

/-- The octets of a tag, and the text behind it. Octets are escaped by a percent sign; `due` of
    them are still missing from a character. -/
def tagText? (isFull : Bool) (due : Nat) : List Char → Option (List Char × List Char)
  | '%' :: a :: b :: rest => do
      let octet := 16 * (← hexDigit? a) + (← hexDigit? b)
      let due ← if due = 0 then followers? octet
        else if octet / 0x40 = 2 then some (due - 1) else none
      let (text, rest) ← tagText? isFull due rest
      return (Char.ofNat octet :: text, rest)
  | c :: rest =>
      if due ≠ 0 || c = '%' then none
      else if isTagChar isFull c then do
        let (text, rest) ← tagText? isFull 0 rest
        return (c :: text, rest)
      else some ([], c :: rest)
  | [] => if due = 0 then some ([], []) else none

/-- The octets of a tag that may not be empty. An octet zero ends the tag. -/
def tagPart? (isFull : Bool) (cs : List Char) : Option (String × List Char) := do
  let (text, rest) ← tagText? isFull 0 cs
  if text.isEmpty then none else some (String.ofList (text.takeWhile (· ≠ '\x00')), rest)

/-- The handle at the start of a text: an exclamation mark, or a name between two of them. If the
    second one is missing, the name is not part of a handle, as the flag tells. -/
def handle? : List Char → Option (List Char × Bool × List Char)
  | '!' :: rest =>
      let name := rest.takeWhile isNameChar
      match rest.dropWhile isNameChar with
      | '!' :: rest => some ('!' :: name ++ ['!'], true, rest)
      | rest => some ('!' :: name, name.isEmpty, rest)
  | _ => none

/-- The tag at the start of a text. -/
def tag? (isFlow : Bool) (cs : List Char) : Option (TagName × List Char) := do
  let (tag, rest) ← match cs with
    | '!' :: '<' :: rest => do
        let (suffix, rest) ← tagPart? true rest
        match rest with
        | '>' :: rest => some (⟨"", suffix⟩, rest)
        | _ => none
    | cs => do
        let (handle, isHandle, rest) ← handle? cs
        if isHandle && handle.length > 1 then
          let (suffix, rest) ← tagPart? false rest
          some (⟨String.ofList handle, suffix⟩, rest)
        else
          let (text, rest) ← tagText? false 0 rest
          let suffix := (handle.drop 1 ++ text).takeWhile (· ≠ '\x00')
          some (if suffix.isEmpty then ⟨"", "!"⟩ else ⟨"!", String.ofList suffix⟩, rest)
  if (isFlow && rest.head? = some ',') || endsWord rest then some (tag, rest) else none

/-- The name of an anchor, behind the mark. -/
def anchor? (cs : List Char) : Option (String × List Char) :=
  let rest := cs.dropWhile isNameChar
  let isEnd := match rest with
    | [] => true
    | c :: _ => isGap c || c ∈ ['?', ':', ',', ']', '\x7d', '%', '@', '\x60']
  if (cs.takeWhile isNameChar).isEmpty || !isEnd then none
  else some (String.ofList (cs.takeWhile isNameChar), rest)

/-- What a directive says about the document behind it. -/
inductive Directive where
  /-- The version of the notation. -/
  | version (major minor : Nat)
  /-- The start of all tags with a handle. -/
  | tag (handle start : String)

namespace Directive

/-- A number of at most nine digits. -/
def number? (cs : List Char) : Option (Nat × List Char) :=
  let digits := cs.takeWhile Char.isDigit
  if digits.isEmpty || digits.length > 9 then none
  else some (digits.foldl (fun n c => 10 * n + (c.toNat - '0'.toNat)) 0, cs.dropWhile Char.isDigit)

def version? (cs : List Char) : Option (Directive × List Char) := do
  let (major, rest) ← number? (cs.dropWhile isBlank)
  match rest with
  | '.' :: rest =>
      let (minor, rest) ← number? rest
      return (version major minor, rest)
  | _ => none

def tag? (cs : List Char) : Option (Directive × List Char) := do
  let (handle, isHandle, rest) ← handle? (cs.dropWhile isBlank)
  if !isHandle || !(rest.head?.map isBlank).getD false then none
  else
    let (start, rest) ← tagPart? true (rest.dropWhile isBlank)
    if endsWord rest then some (tag (String.ofList handle) start, rest) else none

/-- The directive behind a percent sign, and the text from the next line on. -/
def read? (cs : List Char) : Option (Directive × List Char) := do
  let rest := cs.dropWhile isNameChar
  if !endsWord rest then none
  else
    let (directive, rest) ← match String.ofList (cs.takeWhile isNameChar) with
      | "YAML" => version? rest
      | "TAG" => tag? rest
      | _ => none
    return (directive, ← afterLine? rest)

end Directive

end QueryOptimizer.Yaml
