import DocPath.Text.Numeral
import DocPath.Yaml.Cursor

/-!
# DocPath.Yaml.Tag

Tags, anchors and directives of YAML text. A tag is written as a handle and a suffix; directives
give handles their prefixes. The characters of a tag may be escaped as the bytes of their encoding,
so tags are kept as bytes. A zero byte ends the part of a tag that it is in.
-/

namespace DocPath.Yaml

open DocPath.Text

/-- The bytes of a tag or a part of one. -/
abbrev TagText := List UInt8

/-- The bytes of a text. -/
def bytesOf (text : List Char) : TagText := (String.ofList text).toUTF8.toList

/-- A directive of a document. -/
inductive Directive where
  | version (major minor : Nat)
  | tag (handle handled : TagText)
  deriving DecidableEq, Repr

/-! ### Escaped bytes -/

/-- Reads a byte escaped as a percent sign and two hexadecimal digits. -/
def escapedByte? : List Char → Option (UInt8 × List Char)
  | '%' :: a :: b :: rest => (Numeral.readNat? 16 [a, b]).map fun n => (.ofNat n, rest)
  | _ => none

/-- The number of bytes of a character's encoding, from the first byte. -/
def encodedLength? (b : UInt8) : Option Nat :=
  if b < 0x80 then some 1
  else if 0xC0 ≤ b && b < 0xE0 then some 2
  else if 0xE0 ≤ b && b < 0xF0 then some 3
  else if 0xF0 ≤ b && b < 0xF8 then some 4
  else none

/-- Reads a number of escaped bytes, each one that continues a character. -/
def continuation? : Nat → List Char → Option (TagText × List Char)
  | 0, text => some ([], text)
  | n + 1, text => do
    let (b, rest) ← escapedByte? text
    guard (0x80 ≤ b && b < 0xC0)
    let (bs, rest) ← continuation? n rest
    return (b :: bs, rest)

/-- Reads the escaped bytes of one character. -/
def escapedChar? (text : List Char) : Option (TagText × List Char) := do
  let (b, rest) ← escapedByte? text
  let length ← encodedLength? b
  let (bs, rest) ← continuation? (length - 1) rest
  return (b :: bs, rest)

/-! ### Tags -/

/-- The characters of a tag's address; commas and square brackets only where nothing else can be
meant by them. -/
def isTagChar (verbatim : Bool) (c : Char) : Bool :=
  isNameChar c || ";/?:@&=+$.%!~*'()".toList.contains c ||
    (verbatim && (c == ',' || c == '[' || c == ']'))

/-- Reads the bytes of an address, those of its escapes included. -/
def readAddressBytes? (verbatim : Bool) (text : List Char) (mark : Mark) :
    Option (TagText × Cursor) :=
  match text with
  | [] => some ([], ⟨[], mark⟩)
  | c :: rest =>
    if !isTagChar verbatim c then some ([], ⟨c :: rest, mark⟩)
    else if c == '%' then
      match escapedChar? (c :: rest) with
      | none => none
      | some (bs, after) =>
        if _h : after.length ≤ rest.length then
          let mark := mark.advance (text.take (3 * bs.length))
          (readAddressBytes? verbatim after mark).map fun (more, cursor) => (bs ++ more, cursor)
        else none
    else
      (readAddressBytes? verbatim rest (mark.next c)).map fun (more, cursor) =>
        (bytesOf [c] ++ more, cursor)
termination_by text.length

/-- Reads the address of a tag, which ends before its first zero byte; what is written after that is
read and dropped. -/
def readAddress? (verbatim : Bool) (c : Cursor) : Option (TagText × Cursor) :=
  (readAddressBytes? verbatim c.text c.mark).map fun (bs, after) => (bs.takeWhile (· != 0), after)

/-- Reads an address of at least one character. -/
def readSomeAddress? (verbatim : Bool) (c : Cursor) : Option (TagText × Cursor) := do
  let (address, after) ← readAddress? verbatim c
  guard (after.text.length < c.text.length)
  return (address, after)

/-- Reads a handle, which may lack its closing mark: an exclamation mark, a name, and a second
exclamation mark. -/
def readHandle? (c : Cursor) : Option (List Char × Cursor) :=
  match c.text with
  | '!' :: _ =>
    let (name, after) := (c.drop 1).span isNameChar
    if after.text.head? == some '!' then some ('!' :: name ++ ['!'], after.drop 1)
    else some ('!' :: name, after)
  | _ => none

/-- Reads a tag: its handle, which is empty if the tag stands as it is, and its suffix. -/
def readTag? (inFlow : Bool) (c : Cursor) : Option (TagText × TagText × Cursor) := do
  let (handle, suffix, after) ←
    match c.text with
    | '!' :: '<' :: _ => do
      let (suffix, after) ← readSomeAddress? true (c.drop 2)
      guard (after.text.head? == some '>')
      pure ([], suffix, after.drop 1)
    | _ => do
      let (handle, after) ← readHandle? c
      if 1 < handle.length ∧ handle.getLast? = some '!' then
        let (suffix, after) ← readSomeAddress? false after
        pure (bytesOf handle, suffix, after)
      else
        let (more, after) ← readAddress? false after
        let suffix := bytesOf (handle.drop 1) ++ more
        if suffix.isEmpty then pure ([], bytesOf ['!'], after)
        else pure (bytesOf ['!'], suffix, after)
  guard (atGap after.text || (inFlow && after.text.head? == some ','))
  return (handle, suffix, after)

/-! ### Anchors -/

/-- Reads the name of an anchor or an alias after its indicator. -/
def readAnchor? (c : Cursor) : Option (String × Cursor) :=
  let (name, after) := c.span isNameChar
  let ends := atGap after.text || after.text.head?.any ("?:,]\x7d%@\x60".toList.contains ·)
  if name.isEmpty || !ends then none else some (.ofList name, after)

/-! ### Directives -/

/-- Reads a number of a version, of nine digits at most. -/
def readVersionNumber? (c : Cursor) : Option (Nat × Cursor) :=
  let (digits, after) := c.span Char.isDigit
  if digits.isEmpty || 9 < digits.length then none else some (Numeral.value 10 digits, after)

/-- Reads what follows the name of a directive for the version. -/
def readVersion? (c : Cursor) : Option (Directive × Cursor) := do
  let (major, c) ← readVersionNumber? (c.skip isSpace)
  guard (c.text.head? == some '.')
  let (minor, c) ← readVersionNumber? (c.drop 1)
  return (.version major minor, c)

/-- Reads what follows the name of a directive for a handle. -/
def readTagDirective? (c : Cursor) : Option (Directive × Cursor) := do
  let (handle, c) ← readHandle? (c.skip isSpace)
  guard (handle.getLast? = some '!')
  guard (c.text.head?.any isSpace)
  let (handled, c) ← readSomeAddress? true (c.skip isSpace)
  guard (atGap c.text)
  return (.tag (bytesOf handle) handled, c)

/-- Reads a directive from its indicator on, to the end of its line. -/
def readDirective? (c : Cursor) : Option (Directive × Cursor) := do
  let (name, c) := (c.drop 1).span isNameChar
  guard (!name.isEmpty && atGap c.text)
  let (d, c) ←
    match String.ofList name with
    | "YAML" => readVersion? c
    | "TAG" => readTagDirective? c
    | _ => none
  return (d, ← c.endLine?)

end DocPath.Yaml
