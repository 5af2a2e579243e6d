import DocPath.Text.Numeral
import DocPath.Yaml.Cursor

/-!
# DocPath.Yaml.Scalar

The scalars of YAML text: plain ones, quoted ones, and blocks. A line break inside a plain or a
quoted scalar is folded: one break becomes a space, and of several the first is dropped. A block is
literal or folded, and its last line breaks are kept or dropped as its header says.
-/

namespace DocPath.Yaml

open DocPath.Text

/-! ### Gaps -/

/-- Blanks and line breaks between two words of a scalar. -/
structure Gap where
  /-- Whether there has been a line break. -/
  isBroken : Bool := false
  /-- The blanks before any line break. -/
  blanks : List Char := []
  /-- The first line break; nothing if it is escaped. -/
  first : List Char := []
  /-- The line breaks after the first. -/
  more : List Char := []

/-- What a gap contributes to the scalar. -/
def Gap.folded (g : Gap) : List Char :=
  if !g.isBroken then g.blanks
  else if g.first = ['\n'] then (if g.more.isEmpty then [' '] else g.more)
  else g.first ++ g.more

/-- The gap with a blank after it. Blanks at the start of a line do not count. -/
def Gap.addBlank (g : Gap) (c : Char) : Gap :=
  if g.isBroken then g else { g with blanks := g.blanks ++ [c] }

/-- The gap with a line break after it. -/
def Gap.addBreak (g : Gap) (text : List Char) : Gap :=
  if g.isBroken then { g with more := g.more ++ text }
  else { isBroken := true, first := text }

/-- Reads a gap on from one read before. After a line break a tab has to be at the column `indent`
or behind it. -/
def readGap? (indent : Int) (g : Gap) : List Char → Mark → Option (Gap × Cursor)
  | [], mark => some (g, ⟨[], mark⟩)
  | '\r' :: '\n' :: rest, mark =>
    readGap? indent (g.addBreak ['\n']) rest ((mark.next '\r').newLine '\n')
  | c :: rest, mark =>
    if isSpace c then
      if g.isBroken && c == '\t' && mark.column < indent then none
      else readGap? indent (g.addBlank c) rest (mark.next c)
    else if isBreak c then readGap? indent (g.addBreak (breakText c)) rest (mark.newLine c)
    else some (g, ⟨c :: rest, mark⟩)

/-! ### Plain scalars -/

/-- What a plain scalar is read as: its text, whether a line break follows it, and what follows. -/
structure Plain where
  text : List Char
  endsLine : Bool
  after : Cursor

/-- Whether a plain scalar ends before a character, given what follows the character. -/
def endsPlain (inFlow : Bool) (c : Char) (rest : List Char) : Bool :=
  (c == ':' && atGap rest) || (inFlow && isFlowMark c)

/-- Whether a colon in a plain scalar is directly before a mark of a flow collection. -/
def isTightColon (inFlow : Bool) (c : Char) (rest : List Char) : Bool :=
  inFlow && c == ':' &&
    match rest with
    | d :: _ => isFlowMark d || d == '?'
    | [] => false

/-- Reads a plain scalar on from a gap. In a block it ends where a line begins before the column
`indent`; everywhere it ends at a comment after a gap. -/
def readPlain? (inFlow : Bool) (indent : Int) (g : Gap) (text : List Char) (mark : Mark) :
    Option Plain :=
  match text with
  | [] => some ⟨[], g.isBroken, ⟨text, mark⟩⟩
  | c :: rest =>
    if isSpace c || isBreak c then
      match readGap? indent {} text mark with
      | none => none
      | some (g, cursor) =>
        if (!inFlow && cursor.column < indent) ||
            (cursor.column == 0 && atDocumentMark cursor.text) ||
            cursor.text.head? == some '#' then
          some ⟨[], g.isBroken, cursor⟩
        else if _h : cursor.text.length ≤ rest.length then
          readPlain? inFlow indent g cursor.text cursor.mark
        else none
    else if isTightColon inFlow c rest then none
    else if endsPlain inFlow c rest then some ⟨[], g.isBroken, ⟨text, mark⟩⟩
    else
      (readPlain? inFlow indent {} rest (mark.next c)).map fun p =>
        { p with text := g.folded ++ c :: p.text }
termination_by text.length

/-! ### Quoted scalars -/

/-- The character that a letter after a backslash stands for. -/
def escaped? : Char → Option Char
  | '0' => some '\x00'
  | 'a' => some '\x07'
  | 'b' => some '\x08'
  | 't' => some '\t'
  | '\t' => some '\t'
  | 'n' => some '\n'
  | 'v' => some '\x0b'
  | 'f' => some '\x0c'
  | 'r' => some '\r'
  | 'e' => some '\x1b'
  | ' ' => some ' '
  | '"' => some '"'
  | '/' => some '/'
  | '\\' => some '\\'
  | 'N' => some '\u0085'
  | '_' => some '\u00a0'
  | 'L' => some '\u2028'
  | 'P' => some '\u2029'
  | _ => none

/-- The number of hexadecimal digits after a letter after a backslash. -/
def hexWidth? : Char → Option Nat
  | 'x' => some 2
  | 'u' => some 4
  | 'U' => some 8
  | _ => none

/-- Reads an escape from its letter on: the character, and the number of characters read. -/
def escape? (letter : Char) (rest : List Char) : Option (Char × Nat) :=
  match hexWidth? letter with
  | none => (escaped? letter).map (·, 1)
  | some width => do
    let digits := rest.take width
    guard (digits.length = width)
    let n ← Numeral.readNat? 16 digits
    if n.isValidChar then some (Char.ofNat n, width + 1) else none

/-- Reads a quoted scalar after its opening quote: its text, and the cursor after the closing one.
No line of it may begin with a document mark. -/
def readQuoted? (single : Bool) (text : List Char) (mark : Mark) : Option (List Char × Cursor) :=
  if mark.column == 0 && atDocumentMark text then none
  else match text with
  | [] => none
  | c :: rest =>
    let jump (before : List Char) (cursor : Cursor) : Option (List Char × Cursor) :=
      if _h : cursor.text.length ≤ rest.length then
        (readQuoted? single cursor.text cursor.mark).map fun (s, after) => (before ++ s, after)
      else none
    if isSpace c || isBreak c then
      match readGap? 0 {} text mark with
      | none => none
      | some (g, cursor) => jump g.folded cursor
    else if single then
      if c != '\'' then jump [c] ⟨rest, mark.next c⟩
      else if rest.head? == some '\'' then jump ['\''] ⟨rest.drop 1, mark.advance [c, c]⟩
      else some ([], ⟨rest, mark.next c⟩)
    else if c == '"' then some ([], ⟨rest, mark.next c⟩)
    else if c != '\\' then jump [c] ⟨rest, mark.next c⟩
    else match rest with
      | [] => none
      | letter :: rest' =>
        if isBreak letter then
          let cursor := (Cursor.mk rest (mark.next c)).takeBreak.2
          match readGap? 0 { isBroken := true } cursor.text cursor.mark with
          | none => none
          | some (g, cursor) => jump g.folded cursor
        else match escape? letter rest' with
          | none => none
          | some (ch, count) => jump [ch] ⟨rest.drop count, mark.advance (text.take (count + 1))⟩
termination_by text.length

/-! ### Blocks -/

/-- What becomes of the line breaks at the end of a block. -/
inductive Chomping where
  /-- None is kept. -/
  | strip
  /-- One is kept. -/
  | clip
  /-- All are kept. -/
  | keep
  deriving DecidableEq, Repr

/-- Reads the sign of a chomping, if there is one. -/
def readChomping (c : Cursor) : Option Chomping × Cursor :=
  match c.text with
  | '+' :: _ => (some .keep, c.drop 1)
  | '-' :: _ => (some .strip, c.drop 1)
  | _ => (none, c)

/-- Reads the digit of an indentation, if there is one; it must not be zero. -/
def readIncrement? (c : Cursor) : Option (Option Nat × Cursor) :=
  match c.text with
  | d :: _ =>
    if d == '0' then none
    else if d.isDigit then some (Numeral.digitValue d, c.drop 1)
    else some (none, c)
  | [] => some (none, c)

/-- Reads the header of a block up to the end of its line: the chomping and the indentation, in
either order. -/
def readBlockHeader? (c : Cursor) : Option (Chomping × Option Nat × Cursor) := do
  match readChomping c with
  | (some chomping, c) =>
    let (increment, c) ← readIncrement? c
    return (chomping, increment, ← c.endLine?)
  | (none, c) =>
    let (increment, c) ← readIncrement? c
    if increment.isNone then return (.clip, none, ← c.endLine?)
    let (chomping, c) := readChomping c
    return (chomping.getD .clip, increment, ← c.endLine?)

/-- Skips the spaces before a column, or all of them. -/
def skipIndent (indent : Option Nat) : List Char → Mark → Cursor
  | ' ' :: rest, mark =>
    if indent.all (mark.column < ·) then skipIndent indent rest (mark.next ' ')
    else ⟨' ' :: rest, mark⟩
  | text, mark => ⟨text, mark⟩

/-- Reads the empty lines and the indentation before a line of a block: the line breaks, the widest
indentation, and the cursor at the line. -/
def readBlockBreaks? (indent : Option Nat) (widest : Nat) (c : Cursor) :
    Option (List Char × Nat × Cursor) :=
  let line := skipIndent indent c.text c.mark
  let widest := max widest line.column
  if indent.all (line.column < ·) && line.text.head? == some '\t' then none
  else
    let (br, next) := line.takeBreak
    if br.isEmpty then some (br, widest, line)
    else if _h : next.text.length < c.text.length then
      (readBlockBreaks? indent widest next).map fun (brs, widest, after) =>
        (br ++ brs, widest, after)
    else none
termination_by c.text.length

/-- What has been read of a block: its text so far, and the line breaks after it that have no line
behind them yet. -/
structure BlockText where
  text : List Char := []
  /-- The break of the last line. -/
  lineBreak : List Char := []
  /-- Whether the last line begins with a blank. -/
  startsBlank : Bool := false
  /-- The breaks of the empty lines after it. -/
  emptyLines : List Char := []

/-- The text with a line added. In a folded block the break before it is folded, unless one of the
two lines begins with a blank. -/
def BlockText.addLine (literal : Bool) (line : List Char) (b : BlockText) : BlockText :=
  let startsBlank := line.head?.any isSpace
  let folds := !literal && b.lineBreak = ['\n'] && !b.startsBlank && !startsBlank
  let between :=
    if folds then (if b.emptyLines.isEmpty then [' '] else b.emptyLines)
    else b.lineBreak ++ b.emptyLines
  { text := b.text ++ between ++ line, startsBlank }

/-- Reads the lines of a block at a column. -/
def readBlockLines? (literal : Bool) (indent : Nat) (b : BlockText) (c : Cursor) :
    Option (BlockText × Cursor) :=
  if c.column != indent || c.text.isEmpty then some (b, c)
  else
    let (line, atEnd) := c.span (!isBreak ·)
    let (lineBreak, next) := atEnd.takeBreak
    match readBlockBreaks? (some indent) 0 next with
    | none => none
    | some (emptyLines, _, after) =>
      if _h : after.text.length < c.text.length then
        readBlockLines? literal indent { b.addLine literal line with lineBreak, emptyLines } after
      else none
termination_by c.text.length

/-- Reads a block after its indicator; `parent` is the column of the collection it is in. -/
def readBlock? (literal : Bool) (parent : Int) (c : Cursor) : Option (List Char × Cursor) := do
  let (chomping, increment, c) ← readBlockHeader? c
  let given := increment.map fun n => n + parent.toNat
  let (emptyLines, widest, c) ← readBlockBreaks? given 0 c
  -- Without a digit in the header, the lines before the first text decide the indentation.
  let indent := given.getD (max (max widest (parent + 1).toNat) 1)
  let (b, c) ← readBlockLines? literal indent { emptyLines } c
  let tail :=
    match chomping with
    | .strip => []
    | .clip => b.lineBreak
    | .keep => b.lineBreak ++ b.emptyLines
  return (b.text ++ tail, c)

end DocPath.Yaml
