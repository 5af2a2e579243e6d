import DocPath.Binary64.Numeral
import DocPath.Toml.Item

/-!
# DocPath.Toml.Scalar

The scalars of TOML: strings in four forms, numbers, and dates and times. Each reader takes the
text from the scalar's first character on and gives what follows it.
-/

namespace DocPath.Toml

open DocPath.Text

/-- A reader: what is at the head of a text, and what follows it. -/
abbrev Reader (α : Type) := List Char → Option (α × List Char)

/-- What follows a character that has to come next. -/
def skip? (c : Char) : List Char → Option (List Char)
  | x :: rest => if x = c then some rest else none
  | [] => none

/-! ### Characters -/

/-- The blanks of a line. -/
def isWs (c : Char) : Bool := c == ' ' || c == '\t'

/-- The characters that a comment or a literal string may hold: no control character but the tab. -/
def isPrintable (c : Char) : Bool := c == '\t' || (0x20 ≤ c.toNat && c.toNat != 0x7F)

/-- The text without the blanks of a line at its head. -/
def skipWs (text : List Char) : List Char := text.dropWhile isWs

/-- What follows a line break at the head of a text. -/
def newline? : List Char → Option (List Char)
  | '\n' :: rest => some rest
  | '\r' :: '\n' :: rest => some rest
  | _ => none

/-- What follows a comment at the head of a text, up to the end of its line; no comment is none. -/
def skipComment : List Char → List Char
  | '#' :: rest => rest.dropWhile isPrintable
  | text => text

/-! ### Strings -/

/-- Reads a number of hexadecimal digits as a character. -/
def codePoint? (digits : List Char) : Option Char := do
  let n ← Numeral.readNat? 16 digits
  if n.isValidChar then some (Char.ofNat n) else none

/-- Reads an escape after its backslash. -/
def escape? : Reader Char
  | 'b' :: rest => some ('\x08', rest)
  | 't' :: rest => some ('\t', rest)
  | 'n' :: rest => some ('\n', rest)
  | 'f' :: rest => some ('\x0c', rest)
  | 'r' :: rest => some ('\r', rest)
  | '"' :: rest => some ('"', rest)
  | '\\' :: rest => some ('\\', rest)
  | 'u' :: rest =>
    if rest.length < 4 then none else (codePoint? (rest.take 4)).map (·, rest.drop 4)
  | 'U' :: rest =>
    if rest.length < 8 then none else (codePoint? (rest.take 8)).map (·, rest.drop 8)
  | _ => none

/-- What follows an escaped line break, given the text after its backslash: the blanks and line
breaks after it are skipped too. -/
def escapedNewline? (text : List Char) : Option (List Char) :=
  (newline? (skipWs text)).map skipBreaks
where
  /-- Skips blanks and line breaks. -/
  skipBreaks : List Char → List Char
    | '\r' :: '\n' :: rest => skipBreaks rest
    | c :: rest => if c == '\n' || isWs c then skipBreaks rest else c :: rest
    | [] => []

/-- Reads the next piece of a string with escapes that is not a quote: the characters it stands
for, and what follows. Only a string of several lines may hold line breaks. -/
def basicPiece? (multiline : Bool) : Reader (List Char)
  | '\\' :: rest =>
    match if multiline then escapedNewline? rest else none with
    | some after => some ([], after)
    | none => (escape? rest).map fun (c, after) => ([c], after)
  | c :: rest =>
    if isPrintable c then some ([c], rest)
    else if multiline then (newline? (c :: rest)).map fun after => (['\n'], after)
    else none
  | [] => none

/-- Reads the next piece of a string without escapes. -/
def literalPiece? (multiline : Bool) : Reader (List Char)
  | c :: rest =>
    if isPrintable c then some ([c], rest)
    else if multiline then (newline? (c :: rest)).map fun after => (['\n'], after)
    else none
  | [] => none

/-- Reads a string of one line after its opening quote. -/
def lineString? (quote : Char) (piece? : Reader (List Char)) (text : List Char) :
    Option (List Char × List Char) :=
  match text with
  | [] => none
  | c :: rest =>
    if c = quote then some ([], rest)
    else match piece? (c :: rest) with
      | none => none
      | some (cs, after) =>
        if _h : after.length ≤ rest.length then
          (lineString? quote piece? after).map fun (s, end_) => (cs ++ s, end_)
        else none
termination_by text.length

/-- Reads a string of several lines after its opening quotes. Three quotes close it; one or two
more directly before them belong to the string, as do one or two quotes anywhere else. -/
def blockString? (quote : Char) (piece? : Reader (List Char)) (text : List Char) :
    Option (List Char × List Char) :=
  match text with
  | [] => none
  | c :: rest =>
    if c = quote then
      let run := (rest.takeWhile (· == quote)).length + 1
      if run < 3 then
        (blockString? quote piece? rest).map fun (s, after) => (quote :: s, after)
      else if run ≤ 5 then some (List.replicate (run - 3) quote, (c :: rest).drop run)
      else none
    else match piece? (c :: rest) with
      | none => none
      | some (cs, after) =>
        if _h : after.length ≤ rest.length then
          (blockString? quote piece? after).map fun (s, end_) => (cs ++ s, end_)
        else none
termination_by text.length

/-- The text without one line break at its head. -/
def dropNewline (text : List Char) : List Char :=
  (newline? text).getD text

/-- Reads a string of one line, as keys are. -/
def lineKey? : Reader (List Char)
  | '"' :: rest => lineString? '"' (basicPiece? false) rest
  | '\'' :: rest => lineString? '\'' (literalPiece? false) rest
  | _ => none

/-- Reads a string in any of its four forms. -/
def string? : Reader (List Char)
  | '"' :: '"' :: '"' :: rest => blockString? '"' (basicPiece? true) (dropNewline rest)
  | '\'' :: '\'' :: '\'' :: rest => blockString? '\'' (literalPiece? true) (dropNewline rest)
  | text => lineKey? text

/-! ### Numbers -/

/-- Reads digits with single underscores between them: one digit at least. -/
def digits? (isDigit : Char → Bool) : Reader (List Char)
  | [] => none
  | c :: rest => if isDigit c then some (more c rest) else none
where
  /-- The digits from one on, and what follows them. -/
  more (c : Char) : List Char → List Char × List Char
    | [] => ([c], [])
    | d :: rest =>
      if isDigit d then
        let (ds, after) := more d rest
        (c :: ds, after)
      else
        match d, rest with
        | '_', e :: rest' =>
          if isDigit e then
            let (ds, after) := more e rest'
            (c :: ds, after)
          else ([c], d :: rest)
        | _, _ => ([c], d :: rest)

/-- Reads a sign, if there is one: whether it is a minus, and what follows. -/
def sign : List Char → Bool × List Char
  | '-' :: rest => (true, rest)
  | '+' :: rest => (false, rest)
  | text => (false, text)

/-- Reads a decimal integer without its sign: no leading zeros. -/
def decimal? (text : List Char) : Option (List Char × List Char) :=
  match text with
  | '0' :: rest => some (['0'], rest)
  | _ => digits? Char.isDigit text

/-- Reads an integer in hexadecimal, octal or binary digits, or a decimal one with its sign. -/
def integer? (text : List Char) : Option (Item × List Char) :=
  let inBase (base : Nat) (rest : List Char) : Option (Item × List Char) := do
    let (digits, after) ← digits? (Numeral.isDigitIn base) rest
    let n ← Numeral.int64? (Numeral.value base digits)
    return (.integer n, after)
  match text with
  | '0' :: 'x' :: rest => inBase 16 rest
  | '0' :: 'o' :: rest => inBase 8 rest
  | '0' :: 'b' :: rest => inBase 2 rest
  | _ => do
    let (negative, rest) := sign text
    let (digits, after) ← decimal? rest
    let magnitude : Int := Numeral.value 10 digits
    let n ← Numeral.int64? (if negative then -magnitude else magnitude)
    return (.integer n, after)

/-- Reads the digits of a fraction after a decimal integer; there may be none. -/
def fraction? : Reader (List Char)
  | '.' :: rest => digits? Char.isDigit rest
  | text => some ([], text)

/-- Reads an exponent of ten; there may be none. -/
def exponent? : Reader (Option Int)
  | 'e' :: rest => body rest
  | 'E' :: rest => body rest
  | text => some (none, text)
where
  /-- Reads the sign and the digits of an exponent. -/
  body (text : List Char) : Option (Option Int × List Char) := do
    let (negative, rest) := sign text
    let (digits, after) ← digits? Char.isDigit rest
    let magnitude : Int := Numeral.value 10 digits
    return (some (if negative then -magnitude else magnitude), after)

/-- Reads a float, which has a fraction or an exponent or is a named one. It must not be too large,
unless it is negative. -/
def float? (text : List Char) : Option (Item × List Char) :=
  let (negative, rest) := sign text
  match rest with
  | 'i' :: 'n' :: 'f' :: after => some (.float (.infinity negative), after)
  | 'n' :: 'a' :: 'n' :: after => some (.float (.nan negative), after)
  | _ => do
    let (whole, rest) ← decimal? rest
    let (fraction, rest) ← fraction? rest
    let (exponent, after) ← exponent? rest
    guard (fraction ≠ [] ∨ exponent.isSome)
    let x := Binary64.ofDecimal negative (Numeral.value 10 (whole ++ fraction))
      (exponent.getD 0 - (fraction.length : Int))
    guard (x ≠ .infinity false)
    return (.float x, after)

/-! ### Dates and times -/

/-- Reads a number of a fixed count of digits, within bounds. -/
def field? (count least greatest : Nat) (text : List Char) : Option (Nat × List Char) :=
  let digits := text.take count
  let n := Numeral.value 10 digits
  if digits.length = count ∧ digits.all Char.isDigit ∧ least ≤ n ∧ n ≤ greatest then
    some (n, text.drop count)
  else none

/-- The number of days of a month. -/
def daysIn (year month : Nat) : Nat :=
  if month = 2 then
    if year % 4 = 0 ∧ (year % 100 ≠ 0 ∨ year % 400 = 0) then 29 else 28
  else if month = 4 ∨ month = 6 ∨ month = 9 ∨ month = 11 then 30
  else 31

/-- What follows a date. -/
def date? (text : List Char) : Option (List Char) := do
  let (year, rest) ← field? 4 0 9999 text
  let rest ← skip? '-' rest
  let (month, rest) ← field? 2 1 12 rest
  let rest ← skip? '-' rest
  let (_, rest) ← field? 2 1 (daysIn year month) rest
  return rest

/-- What follows the hours and minutes of a time. -/
def hourMinute? (text : List Char) : Option (List Char) := do
  let (_, rest) ← field? 2 0 23 text
  let rest ← skip? ':' rest
  let (_, rest) ← field? 2 0 59 rest
  return rest

/-- What follows a time of day, with seconds and perhaps parts of a second. -/
def time? (text : List Char) : Option (List Char) := do
  let rest ← hourMinute? text
  let rest ← skip? ':' rest
  let (_, rest) ← field? 2 0 60 rest
  match rest with
  | '.' :: c :: after =>
    if c.isDigit then return after.dropWhile Char.isDigit else return rest
  | _ => return rest

/-- What follows the offset of a time from universal time; nothing if it is malformed. -/
def offset? : List Char → Option (List Char)
  | 'Z' :: rest => some rest
  | 'z' :: rest => some rest
  | '+' :: rest => hourMinute? rest
  | '-' :: rest => hourMinute? rest
  | text => some text

/-- What follows a date, a time, or a date and a time with or without an offset. -/
def moment? (text : List Char) : Option (List Char) :=
  match date? text with
  | none => time? text
  | some rest =>
    match rest with
    | c :: afterDelimiter =>
      if c == 'T' || c == 't' || c == ' ' then
        match time? afterDelimiter with
        | some afterTime => offset? afterTime
        | none => some rest
      else some rest
    | [] => some rest

/-- Reads a number, a date or a time. -/
def number? (text : List Char) : Option (Item × List Char) :=
  -- Dates and times begin with digits too, and no number goes on as they do.
  match moment? text with
  | some rest => some (.moment (.ofList (text.take (text.length - rest.length))), rest)
  | none => (float? text).or (integer? text)

end DocPath.Toml
