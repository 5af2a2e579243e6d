import DocPath.Yaml.Scalar
import DocPath.Yaml.Tag

/-!
# DocPath.Yaml.Token

The tokens of YAML text. Collections in block style have no brackets: their tokens are made from
the columns of what begins in them. Whether a scalar or a collection is the key of an entry is known
only when the colon after it comes, so the scanner remembers where a key may have begun, for each
open flow collection, and puts the key's token there later.
-/

namespace DocPath.Yaml

/-- A token of YAML text. -/
inductive Token where
  | directive (d : Directive)
  | documentStart
  | documentEnd
  | blockSequenceStart
  | blockMappingStart
  | blockEnd
  | flowSequenceStart
  | flowSequenceEnd
  | flowMappingStart
  | flowMappingEnd
  | blockEntry
  | flowEntry
  | key
  | value
  | alias (name : String)
  | anchor (name : String)
  | tag (handle suffix : TagText)
  | scalar (isPlain : Bool) (text : List Char)
  deriving DecidableEq

/-- A place where a key may have begun. -/
structure KeyPlace where
  /-- Whether something that is no key cannot begin there. -/
  isRequired : Bool
  /-- The number of tokens before it. -/
  tokenCount : Nat
  mark : Mark

/-- Whether a place is too far back for a key: on an earlier line, or more than 1024 bytes. -/
def KeyPlace.isStale (k : KeyPlace) (m : Mark) : Bool :=
  k.mark.line < m.line || k.mark.offset + 1024 < m.offset

/-- The state of the scan. -/
structure Scan where
  cursor : Cursor
  /-- The tokens so far. -/
  tokens : Array Token := #[]
  /-- The column of the innermost block collection, negative outside all. -/
  indent : Int := -1
  /-- The columns of the block collections around it. -/
  outerIndents : List Int := []
  /-- Where a key may have begun in the innermost flow collection, or in the block outside all. -/
  keyPlace : Option KeyPlace := none
  /-- Where a key may have begun around each open flow collection. -/
  outerKeyPlaces : List (Option KeyPlace) := []
  /-- Whether a key may begin here. -/
  allowsKey : Bool := true

namespace Scan

/-- Whether a flow collection is open. -/
def inFlow (s : Scan) : Bool := !s.outerKeyPlaces.isEmpty

/-- The state with a token added. -/
def push (t : Token) (s : Scan) : Scan := { s with tokens := s.tokens.push t }

/-- The state with the cursor moved. -/
def moveTo (c : Cursor) (s : Scan) : Scan := { s with cursor := c }

/-- The state with the cursor moved past some characters. -/
def skip (count : Nat) (s : Scan) : Scan := s.moveTo (s.cursor.drop count)

/-- The state in which a key may or may not begin. -/
def allowKey (b : Bool) (s : Scan) : Scan := { s with allowsKey := b }

/-! ### Indentation -/

/-- Begins a block collection at a column, unless there is one. Its token comes after `count`
tokens. -/
def beginBlock (column : Nat) (count : Nat) (t : Token) (s : Scan) : Scan :=
  if !s.inFlow && s.indent < column then
    { s with
      tokens := s.tokens.insertIdxIfInBounds count t
      indent := column
      outerIndents := s.indent :: s.outerIndents }
  else s

/-- Ends block collections, given by their columns, as long as they are behind a column. -/
def endBlocks (column : Int) (tokens : Array Token) (indent : Int) :
    List Int → Array Token × Int × List Int
  | [] => (tokens, indent, [])
  | outer :: rest =>
    if column < indent then endBlocks column (tokens.push .blockEnd) outer rest
    else (tokens, indent, outer :: rest)

/-- Ends the block collections behind a column. -/
def unindent (column : Int) (s : Scan) : Scan :=
  if s.inFlow then s
  else
    let (tokens, indent, outerIndents) := endBlocks column s.tokens s.indent s.outerIndents
    { s with tokens, indent, outerIndents }

/-! ### Keys -/

/-- Drops a place that is too far back; it must not be required. -/
def freshen? (m : Mark) : Option KeyPlace → Option (Option KeyPlace)
  | none => some none
  | some k =>
    if !k.isStale m then some (some k)
    else if k.isRequired then none
    else some none

/-- Drops the places that are too far back. -/
def dropStaleKeys? (s : Scan) : Option Scan := do
  let keyPlace ← freshen? s.cursor.mark s.keyPlace
  let outerKeyPlaces ← s.outerKeyPlaces.mapM (freshen? s.cursor.mark)
  return { s with keyPlace, outerKeyPlaces }

/-- Gives up the place where a key may have begun; it must not be required. -/
def dropKey? (s : Scan) : Option Scan :=
  if s.keyPlace.any (·.isRequired) then none else some { s with keyPlace := none }

/-- Remembers that a key may begin here. -/
def saveKey? (s : Scan) : Option Scan :=
  if s.allowsKey then do
    let s ← s.dropKey?
    let isRequired := !s.inFlow && s.indent == s.cursor.column
    return { s with keyPlace := some ⟨isRequired, s.tokens.size, s.cursor.mark⟩ }
  else some s

/-! ### Tokens -/

/-- Adds a token that may be a key, given what is read for it. -/
def addContent? (read : Option (Token × Cursor)) (s : Scan) : Option Scan := do
  let s ← s.saveKey?
  let (t, cursor) ← read
  return ((s.allowKey false).moveTo cursor).push t

/-- Ends all blocks and begins something outside them. -/
def leaveBlocks? (s : Scan) : Option Scan := do
  let s ← (s.unindent (-1)).dropKey?
  return s.allowKey false

/-- Opens a flow collection. -/
def openFlow? (t : Token) (s : Scan) : Option Scan := do
  let s ← s.saveKey?
  let s := { s with keyPlace := none, outerKeyPlaces := s.keyPlace :: s.outerKeyPlaces }
  return ((s.allowKey true).skip 1).push t

/-- Closes a flow collection; outside all of them the token stands alone. -/
def closeFlow? (t : Token) (s : Scan) : Option Scan := do
  let s ← s.dropKey?
  let s :=
    match s.outerKeyPlaces with
    | [] => s
    | outer :: rest => { s with keyPlace := outer, outerKeyPlaces := rest }
  return ((s.allowKey false).skip 1).push t

/-- Begins an item or a key that has an indicator; in a block it may stand only where a key may. -/
def addIndicator? (t collection : Token) (allows : Bool) (s : Scan) : Option Scan := do
  guard (s.inFlow || s.allowsKey)
  let s := s.beginBlock s.cursor.column s.tokens.size collection
  let s ← s.dropKey?
  return ((s.allowKey allows).skip 1).push t

/-- Begins a value. If a key may have begun before it, that was one. -/
def addValue? (s : Scan) : Option Scan := do
  match s.keyPlace with
  | some k =>
    -- The key's token goes where the key began; a block mapping that begins with it comes before.
    let s := { s with tokens := s.tokens.insertIdxIfInBounds k.tokenCount .key, keyPlace := none }
    let s := s.beginBlock k.mark.column k.tokenCount .blockMappingStart
    return ((s.allowKey false).skip 1).push .value
  | none =>
    guard (s.inFlow || s.allowsKey)
    let s := s.beginBlock s.cursor.column s.tokens.size .blockMappingStart
    return ((s.allowKey !s.inFlow).skip 1).push .value

/-- Adds a block scalar. -/
def addBlock? (literal : Bool) (s : Scan) : Option Scan := do
  let s ← s.dropKey?
  let (text, cursor) ← readBlock? literal s.indent (s.cursor.drop 1)
  return ((s.allowKey true).moveTo cursor).push (.scalar false text)

/-- Adds a plain scalar. After a line break a key may begin behind it. -/
def addPlain? (s : Scan) : Option Scan := do
  let s ← s.saveKey?
  let p ← readPlain? s.inFlow (s.indent + 1) {} s.cursor.text s.cursor.mark
  return ((s.allowKey p.endsLine).moveTo p.after).push (.scalar true p.text)

/-- The characters with a meaning of their own, which cannot begin a plain scalar. -/
def isIndicator (c : Char) : Bool :=
  "-?:,[]\x7b\x7d#&*!|>'\"%@\x60".toList.contains c

/-- Adds the token that begins with a character, given what follows the character. -/
def addToken? (c : Char) (rest : List Char) (s : Scan) : Option Scan :=
  let atLineStart := s.cursor.column == 0
  if atLineStart && c == '%' then do
    let s ← s.leaveBlocks?
    let (d, cursor) ← readDirective? s.cursor
    return (s.moveTo cursor).push (.directive d)
  else if atLineStart && atDocumentMark (c :: rest) then do
    let s ← s.leaveBlocks?
    return (s.skip 3).push (if c == '-' then .documentStart else .documentEnd)
  else if c == '[' then s.openFlow? .flowSequenceStart
  else if c == '{' then s.openFlow? .flowMappingStart
  else if c == ']' then s.closeFlow? .flowSequenceEnd
  else if c == '}' then s.closeFlow? .flowMappingEnd
  else if c == ',' then do
    let s ← s.dropKey?
    return ((s.allowKey true).skip 1).push .flowEntry
  else if c == '-' && atGap rest then s.addIndicator? .blockEntry .blockSequenceStart true
  else if c == '?' && (s.inFlow || atGap rest) then
    s.addIndicator? .key .blockMappingStart !s.inFlow
  else if c == ':' && (s.inFlow || atGap rest) then s.addValue?
  else if c == '*' then
    s.addContent? ((readAnchor? (s.cursor.drop 1)).map fun (name, after) => (.alias name, after))
  else if c == '&' then
    s.addContent? ((readAnchor? (s.cursor.drop 1)).map fun (name, after) => (.anchor name, after))
  else if c == '!' then
    s.addContent? ((readTag? s.inFlow s.cursor).map fun (handle, suffix, after) =>
      (.tag handle suffix, after))
  else if c == '|' && !s.inFlow then s.addBlock? true
  else if c == '>' && !s.inFlow then s.addBlock? false
  else if c == '\'' || c == '"' then
    s.addContent? ((readQuoted? (c == '\'') rest (s.cursor.mark.next c)).map fun (text, after) =>
      (.scalar false text, after))
  -- Outside flow collections three indicators begin a plain scalar if no blank follows them.
  else if !(isIndicator c || isSpace c) || (c == '-' && !rest.head?.any isSpace) ||
      (!s.inFlow && (c == '?' || c == ':') && !atGap rest) then s.addPlain?
  else none

/-- Skips blanks, comments and line breaks before a token. Tabs are skipped where no key may begin,
and a mark of the byte order at the start of a line, where it takes up a column. After a line break
outside flow collections a key may begin again. -/
def skipToToken (inFlow : Bool) : (inComment allowsKey : Bool) → List Char → Mark → Bool × Cursor
  | _, allowsKey, [], mark => (allowsKey, ⟨[], mark⟩)
  | _, allowsKey, '\r' :: '\n' :: rest, mark =>
    skipToToken inFlow false (allowsKey || !inFlow) rest ((mark.next '\r').newLine '\n')
  | inComment, allowsKey, c :: rest, mark =>
    if isBreak c then skipToToken inFlow false (allowsKey || !inFlow) rest (mark.newLine c)
    else if inComment || c == ' ' || (c == '\t' && (inFlow || !allowsKey)) ||
        (c == '\ufeff' && mark.column == 0) then
      skipToToken inFlow inComment allowsKey rest (mark.next c)
    else if c == '#' then skipToToken inFlow true allowsKey rest (mark.next c)
    else (allowsKey, ⟨c :: rest, mark⟩)

/-- The tokens of the text from a state on. -/
def finish? (s : Scan) : Option (Array Token) :=
  let (allowsKey, cursor) := skipToToken s.inFlow false s.allowsKey s.cursor.text s.cursor.mark
  match { s with allowsKey, cursor }.dropStaleKeys? with
  | none => none
  | some fresh =>
    match cursor.text with
    | [] => (fresh.unindent (-1)).dropKey?.map (·.tokens)
    | c :: rest =>
      match (fresh.unindent cursor.column).addToken? c rest with
      | none => none
      | some next =>
        if _h : next.cursor.text.length < s.cursor.text.length then next.finish? else none
termination_by s.cursor.text.length

end Scan

/-- The tokens of a text. -/
def tokens? (text : List Char) : Option (List Token) :=
  if text.all isAllowed then (Scan.finish? { cursor := ⟨text, {}⟩ }).map Array.toList else none

end DocPath.Yaml
