import DocPath.Datum
import DocPath.Text.Blank
import DocPath.Text.Numeral

/-!
# DocPath.Json.Token

The tokens of JSON text: brackets, commas, colons and scalars. A scalar carries the datum that it
stands for.

Numerals without fraction and exponent are integers while sixty-four bits hold them. All others are
floats: the digits are gathered into a word as long as they fit, and the word is then multiplied or
divided by the power of ten, which rounds twice. A numeral too large for a float is refused.
-/

namespace DocPath.Json

open DocPath.Text

/-- A token of JSON text. -/
inductive Token where
  | openSequence
  | closeSequence
  | openMapping
  | closeMapping
  | comma
  | colon
  | scalar (d : Datum)
  deriving Inhabited

/-! ### Numerals -/

/-- The parts of a numeral, before they are given a value. -/
structure Numeral where
  negative : Bool
  whole : List Char
  /-- The digits after the point, if there is one. -/
  fraction : Option (List Char)
  /-- Whether the exponent is negative, and its digits, if there is one. -/
  exponent : Option (Bool × List Char)
  deriving Repr

/-- Reads the exponent of a numeral, which ends the text. -/
def Numeral.exponent? : List Char → Option (Option (Bool × List Char))
  | [] => some none
  | e :: cs =>
    let (negative, digits) :=
      match cs with
      | '-' :: ds => (true, ds)
      | '+' :: ds => (false, ds)
      | ds => (false, ds)
    if (e == 'e' || e == 'E') && !digits.isEmpty && digits.all Char.isDigit then
      some (some (negative, digits))
    else none

/-- Reads a whole text as a numeral: no leading zeros, and a digit at least in each part. -/
def Numeral.ofText? (text : List Char) : Option Numeral := do
  let (negative, text) :=
    match text with
    | '-' :: cs => (true, cs)
    | cs => (false, cs)
  let whole := text.takeWhile Char.isDigit
  let rest := text.dropWhile Char.isDigit
  guard (whole = ['0'] ∨ (whole ≠ [] ∧ whole.head? ≠ some '0'))
  match rest with
  | '.' :: cs =>
    let fraction := cs.takeWhile Char.isDigit
    guard (fraction ≠ [])
    let exponent ← exponent? (cs.dropWhile Char.isDigit)
    return ⟨negative, whole, some fraction, exponent⟩
  | cs =>
    let exponent ← exponent? cs
    return ⟨negative, whole, none, exponent⟩

/-- Appends digits to a word as long as sixty-four bits hold it; gives the word and the number of
digits that it took. -/
def gather (word : Nat) : List Char → Nat × Nat
  | [] => (word, 0)
  | c :: cs =>
    let next := word * 10 + (Numeral.digitValue c).getD 0
    if next < UInt64.size then
      let (final, count) := gather next cs
      (final, count + 1)
    else (word, 0)

/-- Scales a float by a power of ten, in one step if the power is itself a float. -/
def scale? (x : Binary64) (e : Int) : Option Binary64 :=
  if 308 < e then
    if x.isZero then some x else none
  else if 0 ≤ e then
    let product := x.mul (.ofDecimal false 1 e)
    if product.isFinite then some product else none
  else if -308 ≤ e then some (x.div (.ofDecimal false 1 (-e)))
  else if x.isZero then some x
  else scale? (x.div (.ofDecimal false 1 308)) (e + 308)
termination_by (-e).toNat

/-- The datum that a numeral stands for, unless it is too large. -/
def Numeral.datum? (n : Numeral) : Option Datum :=
  let (word, taken) := gather 0 n.whole
  let dropped := n.whole.length - taken
  if n.fraction.isNone && n.exponent.isNone && dropped == 0 then
    if !n.negative then some (.uint64 (.ofNat word))
    -- No integer tells the two zeros apart, so the negative one is a float.
    else if word = 0 then some (.float64 (.zero true))
    else if word ≤ UInt64.size / 2 then some (.int64 (.ofInt (-(word : Int))))
    else some (.float64 (.ofQuotient true word 1))
  else
    let (word, places) := gather word (n.fraction.getD [])
    let e : Int := (dropped : Int) - (places : Int)
    let scaled :=
      match n.exponent with
      | none => scale? (.ofNat word) e
      | some (negative, digits) =>
        let m := Numeral.value 10 digits
        if word = 0 then some (.zero false)
        else scale? (.ofNat word) (if negative then e - (m : Int) else e + (m : Int))
    scaled.map fun x => .float64 (.ofMagnitude n.negative x.magnitude)

/-! ### Strings -/

/-- Reads four hexadecimal digits. -/
def hexUnit? (a b c d : Char) : Option Nat :=
  Numeral.readNat? 16 [a, b, c, d]

/-- The character that a letter after a backslash stands for. -/
def escaped? : Char → Option Char
  | '"' => some '"'
  | '\\' => some '\\'
  | '/' => some '/'
  | 'b' => some '\x08'
  | 'f' => some '\x0c'
  | 'n' => some '\n'
  | 'r' => some '\r'
  | 't' => some '\t'
  | _ => none

/-- Reads an escape after its backslash: the character, and what follows. Two escaped units of a
surrogate pair make one character, and a unit of a pair may not stand alone. -/
def escape? : List Char → Option (Char × List Char)
  | 'u' :: a :: b :: c :: d :: rest =>
    match hexUnit? a b c d with
    | none => none
    | some unit =>
      if unit < 0xD800 ∨ 0xE000 ≤ unit then some (Char.ofNat unit, rest)
      else if 0xDC00 ≤ unit then none
      else match rest with
        | '\\' :: 'u' :: a' :: b' :: c' :: d' :: rest' =>
          match hexUnit? a' b' c' d' with
          | none => none
          | some low =>
            if 0xDC00 ≤ low ∧ low < 0xE000 then
              some (Char.ofNat (0x10000 + (unit - 0xD800) * 0x400 + (low - 0xDC00)), rest')
            else none
        | _ => none
  | c :: rest => (escaped? c).map (·, rest)
  | [] => none

/-- Reads one character of a string, given by its first character and what follows it. Control
characters have to be escaped. -/
def piece? (c : Char) (cs : List Char) : Option (Char × List Char) :=
  if c == '\\' then escape? cs
  else if c.toNat < 0x20 then none
  else some (c, cs)

theorem length_escape?_le {cs rest : List Char} {x : Char} (h : escape? cs = some (x, rest)) :
    rest.length ≤ cs.length := by
  unfold escape? at h
  repeat' split at h
  all_goals simp_all
  all_goals grind

theorem length_piece?_le {c x : Char} {cs rest : List Char} (h : piece? c cs = some (x, rest)) :
    rest.length ≤ cs.length := by
  unfold piece? at h
  split at h
  · exact length_escape?_le h
  · split at h
    · simp at h
    · simp_all

/-- Reads a string after its opening quote: the text, and what follows the closing quote. -/
def stringBody? : List Char → Option (List Char × List Char)
  | [] => none
  | c :: cs =>
    if c == '"' then some ([], cs)
    else match h : piece? c cs with
      | none => none
      | some (x, rest) =>
        have : rest.length ≤ cs.length := length_piece?_le h
        (stringBody? rest).map fun (text, after) => (x :: text, after)
termination_by text => text.length

/-! ### Tokens -/

/-- The characters between tokens. -/
def isSpace (c : Char) : Bool :=
  c == ' ' || c == '\t' || c == '\n' || c == '\r'

/-- The characters that numerals are made of. -/
def isNumeric (c : Char) : Bool :=
  c.isDigit || c == '-' || c == '+' || c == '.' || c == 'e' || c == 'E'

/-- The datum that a bare word stands for. -/
def word? (word : List Char) : Option Datum :=
  match String.ofList word with
  | "null" => some .unit
  | "true" => some (.bool true)
  | "false" => some (.bool false)
  | _ => none

/-- The bracket or mark that a character is. -/
def mark? : Char → Option Token
  | '[' => some .openSequence
  | ']' => some .closeSequence
  | '{' => some .openMapping
  | '}' => some .closeMapping
  | ',' => some .comma
  | ':' => some .colon
  | _ => none

/-- Reads the token at the head of a text: the token and what follows it. -/
def token? (c : Char) (cs : List Char) : Option (Token × List Char) :=
  match mark? c with
  | some t => some (t, cs)
  | none =>
    if c == '"' then do
      let (text, rest) ← stringBody? cs
      return (.scalar (.string (.ofList text)), rest)
    else if c == '-' || c.isDigit then do
      let numeral ← Numeral.ofText? (c :: cs.takeWhile isNumeric)
      let d ← numeral.datum?
      return (.scalar d, cs.dropWhile isNumeric)
    else do
      let d ← word? (c :: cs.takeWhile Char.isAlpha)
      return (.scalar d, cs.dropWhile Char.isAlpha)

/-- A string's rest is no longer than the text it was read from. -/
theorem length_stringBody?_le {text s rest : List Char} (h : stringBody? text = some (s, rest)) :
    rest.length ≤ text.length := by
  fun_induction stringBody? text generalizing s rest with
  | case1 => simp at h
  | case2 c cs hc => simp_all
  | case3 => simp at h
  | case4 c cs hc x after hp hle ih =>
    obtain ⟨⟨text, end'⟩, hs, he⟩ := Option.map_eq_some_iff.1 h
    obtain ⟨_, rfl⟩ := Prod.mk.inj he
    have := ih hs
    simp only [List.length_cons]
    omega

/-- A token's rest is no longer than the text after its first character. -/
theorem length_token?_le {c : Char} {cs rest : List Char} {t : Token}
    (h : token? c cs = some (t, rest)) : rest.length ≤ cs.length := by
  unfold token? at h
  split at h
  · simp_all
  · split at h
    · simp only [Option.bind_eq_bind, Option.bind_eq_some_iff, Option.pure_def,
        Option.some.injEq, Prod.mk.injEq, Prod.exists] at h
      obtain ⟨text, rest', hs, _, rfl⟩ := h
      exact length_stringBody?_le hs
    · split at h <;>
      · simp only [Option.bind_eq_bind, Option.bind_eq_some_iff, Option.pure_def,
          Option.some.injEq, Prod.mk.injEq] at h
        grind [Text.length_dropWhile_le]

/-- The tokens of a text, blanks between them dropped. -/
def tokens? : List Char → Option (List Token)
  | [] => some []
  | c :: cs =>
    if isSpace c then tokens? cs
    else match h : token? c cs with
      | none => none
      | some (t, rest) =>
        have : rest.length ≤ cs.length := length_token?_le h
        (tokens? rest).map (t :: ·)
termination_by text => text.length

end DocPath.Json
