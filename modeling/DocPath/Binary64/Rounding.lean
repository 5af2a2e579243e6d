import DocPath.Binary64.Basic

/-!
# DocPath.Binary64.Rounding

Rounding of rational numbers to the nearest floating-point number, a tie going to the one with the
even significand. A quotient is scaled by a power of two until its integral part has fifty-three
bits, or until the least exponent is reached, and is then rounded once. Products, quotients and
conversions round their exact result in the same way.
-/

namespace DocPath.Binary64

/-- The natural number nearest to a quotient; a tie goes to the even one. -/
def roundDiv (num den : Nat) : Nat :=
  let q := num / den
  let r := num % den
  if 2 * r < den then q else if den < 2 * r then q + 1 else q + q % 2

/-- The greatest `k` with `2 ^ k` at most the quotient of two positive numbers. -/
def quotientLog2 (num den : Nat) : Int :=
  let k : Int := (num.log2 : Int) - (den.log2 : Int)
  if den <<< k.toNat ≤ num <<< (-k).toNat then k else k - 1

/-- The number nearest to a quotient of natural numbers, infinity when it is too large. -/
def ofQuotient (negative : Bool) (num den : Nat) : Binary64 :=
  if num = 0 then zero negative
  else
    -- The place of the last bit: the fifty-third, or the last that there is.
    let unit : Int := max (quotientLog2 num den - 52) (-1074)
    let significand := roundDiv (num <<< (-unit).toNat) (den <<< unit.toNat)
    -- A significand that is rounded up to a power of two carries into the exponent.
    ofMagnitude negative (min ((unit + 1074).toNat * hiddenBit + significand) infiniteMagnitude)

/-- The number nearest to `m * 2 ^ e`. -/
def ofScaled (negative : Bool) (m : Nat) (e : Int) : Binary64 :=
  ofQuotient negative (m <<< e.toNat) (1 <<< (-e).toNat)

/-- The number nearest to a natural number. -/
def ofNat (n : Nat) : Binary64 := ofQuotient false n 1

/-- The number nearest to `m * 10 ^ e`. Beyond the range of the exponents the answer is known from
the number of digits alone. -/
def ofDecimal (negative : Bool) (m : Nat) (e : Int) : Binary64 :=
  -- The factor is close to the decimal logarithm of two; the bounds leave room for the difference.
  let places : Nat := m.log2 * 30103 / 100000
  let log : Int := places + e
  if m = 0 then zero negative
  else if 320 < log then infinity negative
  else if log < -340 then zero negative
  else ofQuotient negative (m * tenPow e.toNat) (tenPow (-e).toNat)

/-- The product of two finite numbers. -/
def mul (x y : Binary64) : Binary64 :=
  ofScaled (x.negative != y.negative) (x.significand * y.significand) (x.exponent + y.exponent)

/-- The quotient of two finite numbers, the second not zero. -/
def div (x y : Binary64) : Binary64 :=
  let e := x.exponent - y.exponent
  ofQuotient (x.negative != y.negative) (x.significand <<< e.toNat) (y.significand <<< (-e).toNat)

/-- The number that a word of thirty-two bits stands for in the narrower format, with eight bits of
exponent and twenty-three of fraction. All its numbers are exact in the wider one. -/
def ofBinary32 (bits : UInt32) : Binary64 :=
  let negative := decide (0x80000000 ≤ bits.toNat)
  let magnitude : Nat := bits.toNat % 0x80000000
  let biased : Nat := magnitude / 0x800000
  let fraction : Nat := magnitude % 0x800000
  if biased = 255 then
    if fraction = 0 then infinity negative else nan negative
  else if biased = 0 then ofScaled negative fraction (-149)
  else ofScaled negative (0x800000 + fraction) ((biased : Int) - 150)

end DocPath.Binary64
