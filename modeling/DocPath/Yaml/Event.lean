import DocPath.Yaml.Token

/-!
# DocPath.Yaml.Event

The events of a YAML document: its scalars and aliases, and the starts and ends of its collections,
each with its anchor and its tag. They are read from the tokens by a descent through the nested
collections. The reader of nested nodes is a parameter of the readers of collections, and the depth
to which collections may nest bounds the descent.
-/

namespace DocPath.Yaml

/-- An event of a document. Aliases refer to their anchors by names or by numbers. -/
inductive Event (Ref : Type) where
  | alias (ref : Ref)
  | scalar (anchor : Option String) (tag : Option TagText) (isPlain : Bool) (text : List Char)
  | sequenceStart (anchor : Option String) (tag : Option TagText)
  | sequenceEnd
  | mappingStart (anchor : Option String) (tag : Option TagText)
  | mappingEnd

/-- The event of a node that is left out. -/
def Event.empty : Event Ref := .scalar none none true []

/-- A reader of nodes: their events, and the tokens after them. -/
abbrev NodeReader := List Token → Option (List (Event String) × List Token)

/-- The depth to which collections may nest. -/
def nestingLimit : Nat := 128

/-- Whether one of some tokens comes next. -/
def comesNext (ts : List Token) (tokens : List Token) : Bool :=
  tokens.head?.any (ts.contains ·)

/-- Reads a node, or leaves it out if one of some tokens comes next. -/
def optional? (ends : List Token) (node? : NodeReader) : NodeReader := fun tokens =>
  if comesNext ends tokens then some ([.empty], tokens) else node? tokens

/-- Reads the value of an entry, which has an indicator unless it is left out. -/
def value? (ends : List Token) (node? : NodeReader) : NodeReader
  | .value :: rest => optional? ends node? rest
  | tokens => some ([.empty], tokens)

/-! ### Block collections -/

/-- Reads the items of a block sequence up to its end. -/
def blockItems? (node? : NodeReader) (tokens : List Token) :
    Option (List (Event String) × List Token) :=
  match tokens with
  | .blockEnd :: rest => some ([.sequenceEnd], rest)
  | .blockEntry :: rest =>
    match optional? [.blockEntry, .blockEnd] node? rest with
    | none => none
    | some (item, after) =>
      if _h : after.length ≤ rest.length then
        (blockItems? node? after).map fun (events, after) => (item ++ events, after)
      else none
  | _ => none
termination_by tokens.length

/-- Reads the items of a block sequence that begins at the column of the key before it. It ends with
the first token that is no item. -/
def indentlessItems? (node? : NodeReader) (tokens : List Token) :
    Option (List (Event String) × List Token) :=
  match tokens with
  | .blockEntry :: rest =>
    match optional? [.blockEntry, .key, .value, .blockEnd] node? rest with
    | none => none
    | some (item, after) =>
      if _h : after.length ≤ rest.length then
        (indentlessItems? node? after).map fun (events, after) => (item ++ events, after)
      else none
  | tokens => some ([.sequenceEnd], tokens)
termination_by tokens.length

/-- Reads the entries of a block mapping up to its end. -/
def blockEntries? (node? : NodeReader) (tokens : List Token) :
    Option (List (Event String) × List Token) :=
  match tokens with
  | .blockEnd :: rest => some ([.mappingEnd], rest)
  | .key :: rest => do
    let ends := [.key, .value, .blockEnd]
    let (key, afterKey) ← optional? ends node? rest
    let (item, after) ← value? ends node? afterKey
    if _h : after.length ≤ rest.length then
      (blockEntries? node? after).map fun (events, after) => (key ++ item ++ events, after)
    else none
  | _ => none
termination_by tokens.length

/-! ### Flow collections -/

/-- Reads the comma before an item or an entry that is not the first. -/
def comma? (isFirst : Bool) : List Token → Option (List Token)
  | .flowEntry :: rest => if isFirst then some (.flowEntry :: rest) else some rest
  | tokens => if isFirst then some tokens else none

/-- Reads a single entry inside a flow sequence, after the indicator of its key. An empty key takes
the token after it along. -/
def lonePair? (node? : NodeReader) : NodeReader := fun tokens => do
  let (key, afterKey) ←
    if comesNext [.value, .flowEntry, .flowSequenceEnd] tokens then
      some ([.empty], tokens.drop 1)
    else node? tokens
  let (item, after) ← value? [.flowEntry, .flowSequenceEnd] node? afterKey
  return (.mappingStart none none :: key ++ item ++ [.mappingEnd], after)

/-- Reads the items of a flow sequence up to its end. -/
def flowItems? (node? : NodeReader) (isFirst : Bool) (tokens : List Token) :
    Option (List (Event String) × List Token) :=
  match tokens with
  | .flowSequenceEnd :: rest => some ([.sequenceEnd], rest)
  | tokens =>
    match comma? isFirst tokens with
    | none => none
    | some (.flowSequenceEnd :: rest) => some ([.sequenceEnd], rest)
    | some start =>
      let item :=
        match start with
        | .key :: rest => lonePair? node? rest
        | _ => node? start
      match item with
      | none => none
      | some (item, after) =>
        if _h : after.length < tokens.length then
          (flowItems? node? false after).map fun (events, after) => (item ++ events, after)
        else none
termination_by tokens.length

/-- Reads the entries of a flow mapping up to its end. -/
def flowEntries? (node? : NodeReader) (isFirst : Bool) (tokens : List Token) :
    Option (List (Event String) × List Token) :=
  match tokens with
  | .flowMappingEnd :: rest => some ([.mappingEnd], rest)
  | tokens =>
    match comma? isFirst tokens with
    | none => none
    | some (.flowMappingEnd :: rest) => some ([.mappingEnd], rest)
    | some start =>
      let entry : Option (List (Event String) × List Token) :=
        match start with
        | .key :: rest => do
          let (key, afterKey) ← optional? [.value, .flowEntry, .flowMappingEnd] node? rest
          let (item, after) ← value? [.flowEntry, .flowMappingEnd] node? afterKey
          return (key ++ item, after)
        | _ => (node? start).map fun (key, after) => (key ++ [.empty], after)
      match entry with
      | none => none
      | some (entry, after) =>
        if _h : after.length < tokens.length then
          (flowEntries? node? false after).map fun (events, after) => (entry ++ events, after)
        else none
termination_by tokens.length

/-! ### Nodes -/

/-- Reads the anchor and the tag of a node, in either order. -/
def properties : List Token → Option String × Option (TagText × TagText) × List Token
  | .anchor a :: .tag handle suffix :: rest => (some a, some (handle, suffix), rest)
  | .tag handle suffix :: .anchor a :: rest => (some a, some (handle, suffix), rest)
  | .anchor a :: rest => (some a, none, rest)
  | .tag handle suffix :: rest => (none, some (handle, suffix), rest)
  | tokens => (none, none, tokens)

/-- The tag that a handle and a suffix stand for, given what the handles stand for. -/
def expandTag? (handles : List (TagText × TagText)) : TagText × TagText → Option TagText
  | ([], suffix) => some suffix
  | (handle, suffix) => (handles.lookup handle).map (· ++ suffix)

/-- Reads a node. Collections in block style may begin only where `inBlock` says so, and sequences
of entries at the column of their key only where `indentless` says so. -/
def node? (handles : List (TagText × TagText)) (depth : Nat) (inBlock indentless : Bool)
    (tokens : List Token) : Option (List (Event String) × List Token) :=
  match tokens with
  | .alias name :: rest => some ([.alias name], rest)
  | _ =>
    let (anchor, written, content) := properties tokens
    match written.mapM (expandTag? handles) with
    | none => none
    | some tag =>
      let nested (start : Event String) (read : NodeReader → NodeReader) (inBlock indentless : Bool)
          (rest : List Token) : Option (List (Event String) × List Token) :=
        match depth with
        | 0 => none
        | depth + 1 =>
          (read (node? handles depth inBlock indentless) rest).map fun (events, after) =>
            (start :: events, after)
      let sequence := nested (.sequenceStart anchor tag)
      let mapping := nested (.mappingStart anchor tag)
      match content with
      | .scalar isPlain text :: rest => some ([.scalar anchor tag isPlain text], rest)
      | .flowSequenceStart :: rest => sequence (flowItems? · true) false false rest
      | .flowMappingStart :: rest => mapping (flowEntries? · true) false false rest
      | t :: rest =>
        if indentless && t == .blockEntry then sequence indentlessItems? true false (t :: rest)
        else if inBlock && t == .blockSequenceStart then sequence blockItems? true false rest
        else if inBlock && t == .blockMappingStart then mapping blockEntries? true true rest
        else if anchor.isSome || tag.isSome then
          some ([.scalar anchor tag true []], t :: rest)
        else none
      | [] => if anchor.isSome || tag.isSome then some ([.scalar anchor tag true []], []) else none

/-! ### Documents -/

/-- What the handles stand for without directives. -/
def standardHandles : List (TagText × TagText) :=
  [(bytesOf ['!'], bytesOf ['!']), (bytesOf ['!', '!'], bytesOf "tag:yaml.org,2002:".toList)]

/-- Takes the directives at the head of a document: what the handles stand for, and the tokens after
the directives. The version may be given once, as 1.1 or 1.2, and each handle once. -/
def directives? (hasVersion : Bool) (handles : List (TagText × TagText)) :
    List Token → Option (List (TagText × TagText) × List Token)
  | .directive (.version major minor) :: rest =>
    if !hasVersion && major == 1 && (minor == 1 || minor == 2) then directives? true handles rest
    else none
  | .directive (.tag handle handled) :: rest =>
    if (handles.lookup handle).isSome then none
    else directives? hasVersion ((handle, handled) :: handles) rest
  | tokens => some (handles ++ standardHandles, tokens)

/-- Whether a token ends the content of a document, or there is none. -/
def endsContent : List Token → Bool
  | [] => true
  | .directive _ :: _ => true
  | .documentStart :: _ => true
  | .documentEnd :: _ => true
  | _ => false

/-- Reads the document at the head of the tokens. -/
def document? (tokens : List Token) : Option (List (Event String) × List Token) :=
  if comesNext [.documentEnd] tokens || !endsContent tokens then
    node? standardHandles nestingLimit true false tokens
  else do
    let (handles, rest) ← directives? false [] tokens
    match rest with
    | .documentStart :: content =>
      if endsContent content then return ([.empty], content)
      else node? handles nestingLimit true false content
    | _ => none

/-- The events of the only document of a text; none at all if the text has no document. -/
def events? (text : List Char) : Option (List (Event String)) := do
  let tokens ← tokens? text
  if tokens.isEmpty then return []
  let (events, rest) ← document? tokens
  guard (rest.all (· == .documentEnd))
  return events

end DocPath.Yaml
