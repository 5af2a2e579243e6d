import DocPath.Binary64.Shortest

/-!
# DocPath.Binary64.Written

The written forms of floating-point numbers. Both forms use the shortest digits that read back; a
`Style` says which exponents are written positionally, whether an integer keeps a fraction digit,
how a tie between two shortest decimals goes, and what stands for the words that are no finite
number.
-/

namespace DocPath.Binary64

/-- The choices of a written form. -/
structure Style where
  /-- Where a tie between two shortest decimals goes. -/
  tie : Tie
  /-- Whether a number whose first digit has this decimal exponent is written positionally. -/
  positional : Int → Bool
  /-- Whether a positional integer ends in a point and a zero. -/
  keepsFraction : Bool
  /-- What is written for infinity, after its sign. -/
  infinity : Bool → List Char
  /-- What is written for what is not a number. -/
  nan : List Char

/-- Plain text: always positional, integers without a point. -/
def Style.plain : Style where
  tie := .away
  positional _ := true
  keepsFraction := false
  infinity negative := if negative then "-inf".toList else "inf".toList
  nan := "NaN".toList

/-- The form in JSON text: positional from `1e-5` to below `1e16`, integers with one fraction digit,
and `null` for what JSON has no numeral for. -/
def Style.json : Style where
  tie := .even
  positional e := -5 ≤ e && e ≤ 15
  keepsFraction := true
  infinity _ := "null".toList
  nan := "null".toList

/-- A decimal written with its point in place. -/
def Decimal.positional (keepsFraction : Bool) (d : Decimal) : List Char :=
  let count : Int := d.digits.length
  if d.point ≤ 0 then '0' :: '.' :: (List.replicate (-d.point).toNat '0' ++ d.digits)
  else if count ≤ d.point then
    d.digits ++ List.replicate (d.point - count).toNat '0' ++
      (if keepsFraction then ['.', '0'] else [])
  else d.digits.take d.point.toNat ++ '.' :: d.digits.drop d.point.toNat

/-- A decimal written with one digit before the point and a signed exponent of ten. -/
def Decimal.scientific (d : Decimal) : List Char :=
  let e := d.point - 1
  let mantissa :=
    match d.digits with
    | first :: second :: rest => first :: '.' :: second :: rest
    | digits => digits
  mantissa ++ 'e' :: (if e < 0 then '-' else '+') :: Text.Numeral.ofNat e.natAbs

/-- The written form of a number. -/
def written (style : Style) (x : Binary64) : List Char :=
  if x.isNaN then style.nan
  else if !x.isFinite then style.infinity x.negative
  else
    let sign := if x.negative then ['-'] else []
    if x.isZero then sign ++ (if style.keepsFraction then "0.0".toList else "0".toList)
    else
      let d := shortest style.tie x
      sign ++ (if style.positional (d.point - 1) then d.positional style.keepsFraction
        else d.scientific)

end DocPath.Binary64
