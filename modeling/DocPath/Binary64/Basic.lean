/-!
# DocPath.Binary64.Basic

Binary floating-point numbers of sixty-four bits, as words. The highest bit is the sign, the next
eleven the exponent, the other fifty-two the fraction. Everything is computed on the word in exact
arithmetic of natural numbers; the machine's own floating-point unit is not used. A shift to the
left multiplies by a power of two.

The order of the words without their sign is the order of the absolute values: the words below
`infiniteMagnitude` are finite, it is infinity, and those above it are not numbers.
-/

namespace DocPath

/-- A floating-point number, given by its word. Two are the same when their words are. -/
structure Binary64 where
  /-- The word: sign, exponent and fraction. -/
  bits : UInt64
  deriving DecidableEq, Inhabited, Repr

namespace Binary64

/-- The highest bit of a word, its sign. -/
def signBit : Nat := 0x8000000000000000

/-- The bit above the fraction, which the significand of a normal number has besides. -/
def hiddenBit : Nat := 0x10000000000000

/-- The word of infinity. -/
def infiniteMagnitude : Nat := 0x7FF0000000000000

/-- Ten to a power. -/
def tenPow (n : Nat) : Nat := Nat.pow 10 n

/-- The word without its sign. -/
def magnitude (x : Binary64) : Nat := x.bits.toNat % signBit

/-- Whether the sign bit is set. -/
def negative (x : Binary64) : Bool := decide (signBit ≤ x.bits.toNat)

/-- Whether the word is not that of a number. -/
def isNaN (x : Binary64) : Bool := decide (infiniteMagnitude < x.magnitude)

/-- Whether the word is that of a finite number. -/
def isFinite (x : Binary64) : Bool := decide (x.magnitude < infiniteMagnitude)

/-- Whether the word is that of a zero of either sign. -/
def isZero (x : Binary64) : Bool := x.magnitude == 0

/-- The number with a sign and a magnitude. -/
def ofMagnitude (negative : Bool) (magnitude : Nat) : Binary64 :=
  ⟨.ofNat ((if negative then signBit else 0) + magnitude)⟩

/-- Zero of either sign. -/
def zero (negative : Bool) : Binary64 := ofMagnitude negative 0

/-- Infinity of either sign. -/
def infinity (negative : Bool) : Binary64 := ofMagnitude negative infiniteMagnitude

/-- The quiet word that is not a number: only the highest bit of its fraction is set. -/
def nan (negative : Bool) : Binary64 := ofMagnitude negative (infiniteMagnitude + 0x8000000000000)

/-- The integer that a finite number's absolute value is, in units of `2 ^ exponent`. -/
def significand (x : Binary64) : Nat :=
  if x.magnitude < hiddenBit then x.magnitude else hiddenBit + x.magnitude % hiddenBit

/-- The binary exponent of the unit of a finite number's significand. -/
def exponent (x : Binary64) : Int :=
  (max (x.magnitude / hiddenBit) 1 : Nat) - 1075

/-- Equality of numbers: zeros of either sign are equal, and what is not a number is equal to
nothing, itself included. -/
def equal (x y : Binary64) : Bool :=
  !x.isNaN && !y.isNaN && (x == y || (x.isZero && y.isZero))

theorem equal_comm (x y : Binary64) : x.equal y = y.equal x := by
  have h : (x == y) = (y == x) := by
    by_cases hxy : x = y
    · rw [hxy]
    · rw [beq_eq_false_iff_ne.2 hxy, beq_eq_false_iff_ne.2 (Ne.symm hxy)]
  simp only [equal, h, Bool.and_comm x.isZero, Bool.and_comm (!x.isNaN)]

/-- A number is equal to itself exactly if it is one. -/
theorem equal_self (x : Binary64) : x.equal x = !x.isNaN := by
  simp [equal]

end Binary64

end DocPath
