import DocPath.Binary64.Basic
import DocPath.Text.Blank
import DocPath.Text.Numeral

/-!
# DocPath.Binary64.Shortest

The shortest decimal that reads back as a given number. A finite number is the rounding of every
real in an interval around it, which contains its ends exactly if the significand is even. On the
decimal grid with one significant digit, then two and so on, the two neighbours of the number are
tested; the first grid with a neighbour in the interval wins, of two neighbours the nearer one, and
a tie goes as the caller asks.
-/

namespace DocPath.Binary64

open DocPath.Text

/-- Where a decimal exactly between two of the grid goes. -/
inductive Tie
  /-- To the larger absolute value. -/
  | away
  /-- To the one with the even last digit. -/
  | even
  deriving DecidableEq, Repr

/-- A positive decimal: its significant digits, the last of them not zero, and the position of the
point, counted from before the first digit. -/
structure Decimal where
  digits : List Char
  point : Int
  deriving DecidableEq, Repr

/-- The decimal exponent of the first digit of a positive quotient. -/
def quotientLog10 (num den : Nat) : Int :=
  if den ≤ num then ((Numeral.ofNat (num / den)).length : Int) - 1
  else
    let places := (Numeral.ofNat (den / num)).length
    if num * tenPow (places - 1) = den then 1 - (places : Int) else -(places : Int)

/-- An interval of positive rationals with a common denominator, around a point of it. -/
structure Interval where
  low : Nat
  mid : Nat
  high : Nat
  den : Nat
  closed : Bool

/-- The interval of the reals that round to a finite number other than zero. Below a power of two
the neighbour is half as far as above it. -/
def Interval.ofBinary64 (x : Binary64) : Interval :=
  let m := x.significand
  let below := if m = hiddenBit ∧ x.magnitude ≠ hiddenBit then 1 else 2
  -- In quarters of the last place the ends and the middle are all integers.
  let e := x.exponent - 2
  { low := (4 * m - below) <<< e.toNat
    mid := (4 * m) <<< e.toNat
    high := (4 * m + 2) <<< e.toNat
    den := 1 <<< (-e).toNat
    closed := m % 2 = 0 }

/-- Whether `d * 10 ^ e` is in an interval. -/
def Interval.contains (i : Interval) (d : Nat) (e : Int) : Bool :=
  let num := d * tenPow e.toNat * i.den
  let scale := tenPow (-e).toNat
  if i.closed then i.low * scale ≤ num && num ≤ i.high * scale
  else i.low * scale < num && num < i.high * scale

/-- The point of the grid of multiples of `10 ^ e` that is in an interval and nearest to its
middle. -/
def Interval.nearest? (i : Interval) (tie : Tie) (e : Int) : Option Nat :=
  let num := i.mid * tenPow (-e).toNat
  let den := i.den * tenPow e.toNat
  let d := num / den
  let twice := 2 * (num % den)
  match i.contains d e, i.contains (d + 1) e with
  | false, false => none
  | true, false => some d
  | false, true => some (d + 1)
  | true, true =>
    if twice < den then some d
    else if den < twice then some (d + 1)
    else match tie with
      | .away => some (d + 1)
      | .even => some (d + d % 2)

/-- Searches the grids with `count` significant digits and more, `steps` of them, and falls back to
the digits of the middle, which seventeen digits never need. -/
def Interval.shortestFrom (i : Interval) (tie : Tie) (log : Int) :
    (steps : Nat) → (count : Nat) → Nat × Int
  | 0, count =>
    let e := log + 1 - (count : Int)
    (i.mid * tenPow (-e).toNat / (i.den * tenPow e.toNat), e)
  | steps + 1, count =>
    let e := log + 1 - (count : Int)
    match i.nearest? tie e with
    | some d => (d, e)
    | none => i.shortestFrom tie log steps (count + 1)

/-- The shortest decimal that reads back as a finite number other than zero, whatever its sign. -/
def shortest (tie : Tie) (x : Binary64) : Decimal :=
  let i := Interval.ofBinary64 x
  let (d, e) := i.shortestFrom tie (quotientLog10 i.mid i.den) 17 1
  let digits := Numeral.ofNat d
  { digits := Text.stripEnd (· == '0') digits
    point := (digits.length : Int) + e }

end DocPath.Binary64
