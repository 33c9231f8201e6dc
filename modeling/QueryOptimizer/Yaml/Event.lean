import QueryOptimizer.Yaml.Token

/-! # Events

The nodes of a document, from the outermost to the innermost one: a scalar, or the start of a
collection, what it holds, and its end. A mapping holds keys and values in turn. A node that is
left out is an empty plain scalar.

What has to come next is kept as a stack of goals. A goal reads some tokens, tells some events,
and may put other goals on the stack.
-/

namespace QueryOptimizer.Yaml

inductive Event where
  | alias (name : String)
  | scalar (anchor tag : Option String) (style : Style) (text : String)
  | sequenceStart (anchor : Option String)
  | sequenceEnd
  | mappingStart (anchor : Option String)
  | mappingEnd

def Event.empty : Event := .scalar none none .plain ""

/-- What the handles of tags stand for. -/
abbrev Handles := List (String × String)

/-- What has to come next. -/
inductive Goal where
  /-- A node. Outside brackets it may be a block, and behind a key or a colon a sequence that is
      not indented. -/
  | node (isBlock allowsLoose : Bool)
  /-- The items of a sequence, or its end. -/
  | blockItems
  /-- The items of a sequence that is not indented. -/
  | looseItems
  | blockKeys
  | blockValue
  /-- The items up to a bracket. All but the first come behind a comma. -/
  | flowItems (isFirst : Bool)
  /-- The parts of a mapping with one entry, which is an item of a sequence. -/
  | pairKey
  | pairValue
  | pairEnd
  /-- The entries up to a brace. -/
  | flowKeys (isFirst : Bool)
  | flowValue
  /-- The value of a key without a colon. -/
  | flowNoValue

/-- What a goal came to: events, further goals, and the tokens that are left. -/
structure Progress where
  events : List Event
  goals : List Goal
  rest : List Token

namespace Goal

/-- A full tag, if its handle is known. -/
def resolve? (handles : Handles) (tag : TagName) : Option String :=
  if tag.handle.isEmpty then some tag.suffix
  else (handles.lookup tag.handle).map (· ++ tag.suffix)

/-- The anchor and the tag in front of a node, in any order. -/
def properties (tokens : List Token) : Option String × Option TagName × List Token :=
  match tokens with
  | .anchor name :: .tag tag :: rest => (some name, some tag, rest)
  | .tag tag :: .anchor name :: rest => (some name, some tag, rest)
  | .anchor name :: rest => (some name, none, rest)
  | .tag tag :: rest => (none, some tag, rest)
  | rest => (none, none, rest)

def readNode? (handles : Handles) (isBlock allowsLoose : Bool) (tokens : List Token) :
    Option Progress := do
  let (anchor, tag, rest) := properties tokens
  let tag ← match tag with
    | some tag => some (some (← resolve? handles tag))
    | none => some none
  match rest, isBlock with
  | .scalar style text :: rest, _ => some ⟨[.scalar anchor tag style text], [], rest⟩
  | .flowSequenceStart :: rest, _ => some ⟨[.sequenceStart anchor], [.flowItems true], rest⟩
  | .flowMappingStart :: rest, _ => some ⟨[.mappingStart anchor], [.flowKeys true], rest⟩
  | .blockSequenceStart :: rest, true => some ⟨[.sequenceStart anchor], [.blockItems], rest⟩
  | .blockMappingStart :: rest, true => some ⟨[.mappingStart anchor], [.blockKeys], rest⟩
  | rest, _ =>
      match allowsLoose, rest with
      | true, .blockEntry :: _ => some ⟨[.sequenceStart anchor], [.looseItems], rest⟩
      | _, _ =>
          if anchor.isSome || tag.isSome then some ⟨[.scalar anchor tag .plain ""], [], rest⟩
          else none

/-- A node, unless the next token is one of those before which it is left out. -/
def nodeOr (isOmitted : Token → Bool) (node next : Goal) (rest : List Token) : Progress :=
  if (rest.head?.map isOmitted).getD false then ⟨[.empty], [next], rest⟩
  else ⟨[], [node, next], rest⟩

def endsBlockItem : Token → Bool
  | .blockEntry | .blockEnd => true
  | _ => false

def endsBlockPart : Token → Bool
  | .key | .value | .blockEnd => true
  | _ => false

def endsLooseItem (token : Token) : Bool := endsBlockItem token || endsBlockPart token

def endsFlowItem : Token → Bool
  | .flowEntry | .flowSequenceEnd => true
  | _ => false

def endsPairKey : Token → Bool
  | .value | .flowEntry | .flowSequenceEnd => true
  | _ => false

def endsFlowValue : Token → Bool
  | .flowEntry | .flowMappingEnd => true
  | _ => false

def endsFlowKey : Token → Bool
  | .value | .flowEntry | .flowMappingEnd => true
  | _ => false

/-- The tokens behind a comma, which is missing before the first item. -/
def afterComma? (isFirst : Bool) (tokens : List Token) : Option (List Token) :=
  match isFirst, tokens with
  | true, tokens => some tokens
  | false, .flowEntry :: rest => some rest
  | false, _ => none

/-- Reads what a goal asks for. -/
def step? (handles : Handles) (goal : Goal) (tokens : List Token) : Option Progress :=
  let blockNode := node true false
  let entryNode := node true true
  let flowNode := node false false
  match goal, tokens with
  | node .., .alias name :: rest => some ⟨[.alias name], [], rest⟩
  | node isBlock allowsLoose, tokens => readNode? handles isBlock allowsLoose tokens
  | blockItems, .blockEntry :: rest => some (nodeOr endsBlockItem blockNode blockItems rest)
  | blockItems, .blockEnd :: rest => some ⟨[.sequenceEnd], [], rest⟩
  | blockItems, _ => none
  | looseItems, .blockEntry :: rest => some (nodeOr endsLooseItem blockNode looseItems rest)
  | looseItems, rest => some ⟨[.sequenceEnd], [], rest⟩
  | blockKeys, .key :: rest => some (nodeOr endsBlockPart entryNode blockValue rest)
  | blockKeys, .blockEnd :: rest => some ⟨[.mappingEnd], [], rest⟩
  | blockKeys, _ => none
  | blockValue, .value :: rest => some (nodeOr endsBlockPart entryNode blockKeys rest)
  | blockValue, rest => some ⟨[.empty], [blockKeys], rest⟩
  | flowItems _, .flowSequenceEnd :: rest => some ⟨[.sequenceEnd], [], rest⟩
  | flowItems isFirst, tokens => do
      match ← afterComma? isFirst tokens with
      | .flowSequenceEnd :: rest => some ⟨[.sequenceEnd], [], rest⟩
      | .key :: rest => some ⟨[.mappingStart none], [pairKey], rest⟩
      | rest => some ⟨[], [flowNode, flowItems false], rest⟩
  | pairKey, tokens =>
      if (tokens.head?.map endsPairKey).getD false then
        some ⟨[.empty], [pairValue], tokens.drop 1⟩
      else some ⟨[], [flowNode, pairValue], tokens⟩
  | pairValue, .value :: rest => some (nodeOr endsFlowItem flowNode pairEnd rest)
  | pairValue, rest => some ⟨[.empty], [pairEnd], rest⟩
  | pairEnd, rest => some ⟨[.mappingEnd], [flowItems false], rest⟩
  | flowKeys _, .flowMappingEnd :: rest => some ⟨[.mappingEnd], [], rest⟩
  | flowKeys isFirst, tokens => do
      match ← afterComma? isFirst tokens with
      | .flowMappingEnd :: rest => some ⟨[.mappingEnd], [], rest⟩
      | .key :: rest => some (nodeOr endsFlowKey flowNode flowValue rest)
      | rest => some ⟨[], [flowNode, flowNoValue], rest⟩
  | flowValue, .value :: rest => some (nodeOr endsFlowValue flowNode (flowKeys false) rest)
  | flowValue, rest => some ⟨[.empty], [flowKeys false], rest⟩
  | flowNoValue, rest => some ⟨[.empty], [flowKeys false], rest⟩

/-- The events of all goals, and the tokens that are left. A goal that reads no token is followed
    by one that does or by the end of a collection, so that eight steps for each token are enough
    fuel. -/
def readAll (handles : Handles) : Nat → List Goal → List Token → Option (List Event × List Token)
  | _, [], tokens => some ([], tokens)
  | 0, _, _ => none
  | fuel + 1, goal :: goals, tokens => do
      let progress ← goal.step? handles tokens
      let (events, rest) ← readAll handles fuel (progress.goals ++ goals) progress.rest
      return (progress.events ++ events, rest)

end Goal

namespace Event

/-- The handles that directives define, and the tokens behind the directives. There may be one
    directive for the version and one for each handle. -/
def readDirectives? (hasVersion : Bool) (handles : Handles) :
    List Token → Option (Handles × List Token)
  | .directive (.version major minor) :: rest =>
      if hasVersion || major ≠ 1 || !(minor = 1 || minor = 2) then none
      else readDirectives? true handles rest
  | .directive (.tag handle start) :: rest =>
      if (handles.lookup handle).isSome then none
      else readDirectives? hasVersion (handles ++ [(handle, start)]) rest
  | rest => some (handles ++ [("!", "!"), ("!!", "tag:yaml.org,2002:")], rest)

/-- Whether a document that started has no node in front of this token. -/
def endsDocument : Token → Bool
  | .directive _ | .documentStart | .documentEnd => true
  | _ => false

/-- The events of the only document of a text. There are none if there is no document. -/
def ofTokens? (tokens : List Token) : Option (List Event) := do
  let node (handles : Handles) (tokens : List Token) :=
    Goal.readAll handles (8 * tokens.length + 8) [.node true false] tokens
  let isExplicit := match tokens with
    | .directive _ :: _ | .documentStart :: _ => true
    | _ => false
  let (handles, rest) ← readDirectives? false [] tokens
  let (events, rest) ←
    if tokens.isEmpty then some ([], [])
    else if !isExplicit then node handles rest
    else
      match rest with
      | .documentStart :: rest =>
          if (rest.head?.map endsDocument).getD true then some ([.empty], rest)
          else node handles rest
      | _ => none
  let isMarker : Token → Bool
    | .documentEnd => true
    | _ => false
  if rest.all isMarker then some events else none

end Event

end QueryOptimizer.Yaml
