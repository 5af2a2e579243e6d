/-!
# DocPath.Yaml.Cursor

Positions in YAML text. A `Cursor` is the text that is still to be read together with the mark of
its first character; lines break at five characters, two of which may be joined.
-/

namespace DocPath.Yaml

/-! ### Characters -/

/-- The characters that a text may hold: no control characters but the tab and line breaks. -/
def isAllowed (c : Char) : Bool :=
  let n := c.toNat
  n == 0x09 || n == 0x0A || n == 0x0D || (0x20 ≤ n && n ≤ 0x7E) || n == 0x85 ||
    (0xA0 ≤ n && n ≤ 0xFFFD) || 0x10000 ≤ n

/-- The blanks of a line. -/
def isSpace (c : Char) : Bool := c == ' ' || c == '\t'

/-- The characters that end a line. -/
def isBreak (c : Char) : Bool :=
  c == '\n' || c == '\r' || c == '\u0085' || c == '\u2028' || c == '\u2029'

/-- The characters of names. -/
def isNameChar (c : Char) : Bool := c.isAlphanum || c == '-' || c == '_'

/-- The brackets and the comma of flow collections. -/
def isFlowMark (c : Char) : Bool :=
  c == ',' || c == '[' || c == ']' || c == '{' || c == '}'

/-- Whether a text is at its end or at the end of a line. -/
def atLineEnd : List Char → Bool
  | [] => true
  | c :: _ => isBreak c

/-- Whether a text is at its end, at the end of a line or at a blank. -/
def atGap : List Char → Bool
  | [] => true
  | c :: _ => isSpace c || isBreak c

/-- Whether a text begins with the mark that separates or ends documents. -/
def atDocumentMark : List Char → Bool
  | '-' :: '-' :: '-' :: rest => atGap rest
  | '.' :: '.' :: '.' :: rest => atGap rest
  | _ => false

/-- What a line break contributes to the text of a scalar. -/
def breakText (c : Char) : List Char :=
  if c == '\u2028' || c == '\u2029' then [c] else ['\n']

/-! ### Cursors -/

/-- The position of a character: the number of bytes before it in the encoded text, its line, and
its column in the line. Columns count characters. -/
structure Mark where
  offset : Nat := 0
  line : Nat := 0
  column : Nat := 0
  deriving DecidableEq, Repr

namespace Mark

/-- The position after a character, on the same line. -/
def next (m : Mark) (c : Char) : Mark :=
  { m with offset := m.offset + c.utf8Size, column := m.column + 1 }

/-- The position after some characters, on the same line. -/
def advance (m : Mark) (cs : List Char) : Mark := cs.foldl next m

/-- The position after a character that ends a line. -/
def newLine (m : Mark) (c : Char) : Mark :=
  { offset := m.offset + c.utf8Size, line := m.line + 1, column := 0 }

end Mark

/-- The text that is still to be read, and the position of its first character. -/
structure Cursor where
  text : List Char
  mark : Mark := {}
  deriving Repr

namespace Cursor

/-- The column of the next character. -/
def column (c : Cursor) : Nat := c.mark.column

/-- The cursor after some characters of the same line. -/
def drop (c : Cursor) (count : Nat) : Cursor :=
  ⟨c.text.drop count, c.mark.advance (c.text.take count)⟩

/-- The characters of a class at the cursor, and the cursor after them. -/
def span (c : Cursor) (p : Char → Bool) : List Char × Cursor :=
  let taken := c.text.takeWhile p
  (taken, ⟨c.text.dropWhile p, c.mark.advance taken⟩)

/-- The cursor after the characters of a class. -/
def skip (c : Cursor) (p : Char → Bool) : Cursor := (c.span p).2

/-- The line break at the cursor as it counts in a scalar, and the cursor after it; without a line
break nothing. -/
def takeBreak (c : Cursor) : List Char × Cursor :=
  match c.text with
  | '\r' :: '\n' :: rest => (['\n'], ⟨rest, (c.mark.next '\r').newLine '\n'⟩)
  | x :: rest => if isBreak x then (breakText x, ⟨rest, c.mark.newLine x⟩) else ([], c)
  | [] => ([], c)

/-- The cursor after the blanks and the comment at the end of a line, and after its line break;
nothing if something else is on the line. -/
def endLine? (c : Cursor) : Option Cursor :=
  let c := c.skip isSpace
  let c := if c.text.head? = some '#' then c.skip (!isBreak ·) else c
  if atLineEnd c.text then some c.takeBreak.2 else none

end Cursor

end DocPath.Yaml
