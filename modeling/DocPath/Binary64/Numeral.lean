import DocPath.Binary64.Rounding
import DocPath.Text.Numeral

/-!
# DocPath.Binary64.Numeral

Reading of floating-point numerals: an optional sign, digits with an optional point, an optional
exponent of ten, with a digit before or after the point; or, in letters of either case, `inf`,
`infinity` and `nan`. The number read is the one nearest to the numeral's exact value.
-/

namespace DocPath.Binary64

open DocPath.Text

/-- Reads a numeral without sign: its digits as an integer, and the power of ten that scales it. -/
def readUnsigned? (text : List Char) : Option (Nat × Int) :=
  let whole := text.takeWhile Char.isDigit
  let afterWhole := text.dropWhile Char.isDigit
  let (fraction, rest) :=
    match afterWhole with
    | '.' :: cs => (cs.takeWhile Char.isDigit, cs.dropWhile Char.isDigit)
    | cs => ([], cs)
  let digits := Numeral.value 10 (whole ++ fraction)
  if whole.isEmpty && fraction.isEmpty then none
  else match rest with
    | [] => some (digits, -(fraction.length : Int))
    | c :: cs =>
      if c == 'e' || c == 'E' then
        (Numeral.readInt? 10 cs).map fun e => (digits, e - (fraction.length : Int))
      else none

/-- Reads what follows the sign of a numeral. -/
def readMagnitude? (negative : Bool) (text : List Char) : Option Binary64 :=
  match readUnsigned? text with
  | some (digits, e) => some (ofDecimal negative digits e)
  | none =>
    let name := String.ofList (text.map Char.toLower)
    if name = "inf" ∨ name = "infinity" then some (infinity negative)
    else if name = "nan" then some (nan negative)
    else none

/-- Reads a floating-point numeral. -/
def read? : List Char → Option Binary64
  | '-' :: text => readMagnitude? true text
  | '+' :: text => readMagnitude? false text
  | text => readMagnitude? false text

end DocPath.Binary64
