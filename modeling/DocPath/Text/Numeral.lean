/-!
# DocPath.Text.Numeral

Numerals: the positional notation of natural numbers and integers, and its reading. Writing uses
the decimal digits of ASCII without leading zeros and a minus sign below zero. Reading takes the
digits of any base up to thirty-six, leading zeros included.
-/

namespace DocPath.Text.Numeral

/-- The digit for a value below ten. -/
def digit (n : Nat) : Char :=
  Char.ofNat ('0'.toNat + n)

/-- The decimal digits of a natural number, most significant first. -/
def ofNat (n : Nat) : List Char :=
  if n < 10 then [digit n] else ofNat (n / 10) ++ [digit (n % 10)]
termination_by n

/-- The decimal numeral of an integer: a minus sign below zero, then the digits. -/
def ofInt : Int → List Char
  | .ofNat n => ofNat n
  | .negSucc n => '-' :: ofNat (n + 1)

/-- The digit for a value below sixteen, with capital letters above nine. -/
def hexDigit (n : Nat) : Char :=
  if n < 10 then digit n else Char.ofNat ('A'.toNat + (n - 10))

/-- The last `width` hexadecimal digits of a number, most significant first. -/
def hex : (width : Nat) → Nat → List Char
  | 0, _ => []
  | width + 1, n => hex width (n / 16) ++ [hexDigit (n % 16)]

/-- The value of an ASCII letter or digit as a digit, in bases up to thirty-six. -/
def digitValue (c : Char) : Option Nat :=
  if '0' ≤ c && c ≤ '9' then some (c.toNat - '0'.toNat)
  else if 'a' ≤ c && c ≤ 'z' then some (c.toNat - 'a'.toNat + 10)
  else if 'A' ≤ c && c ≤ 'Z' then some (c.toNat - 'A'.toNat + 10)
  else none

/-- Whether the character is a digit in a base. -/
def isDigitIn (base : Nat) (c : Char) : Bool :=
  match digitValue c with
  | some n => n < base
  | none => false

/-- The number that a list of digits denotes, each digit weighted by its place. -/
def value (base : Nat) (digits : List Char) : Nat :=
  digits.foldl (fun n c => n * base + (digitValue c).getD 0) 0

/-- Reads a non-empty list of digits of a base. -/
def readNat? (base : Nat) (text : List Char) : Option Nat :=
  if !text.isEmpty && text.all (isDigitIn base) then some (value base text) else none

/-- Reads an integer: an optional sign of either kind, then one digit or more. -/
def readInt? (base : Nat) : List Char → Option Int
  | '-' :: digits => (readNat? base digits).map fun n => -(n : Int)
  | '+' :: digits => (readNat? base digits).map fun n => (n : Int)
  | digits => (readNat? base digits).map fun n => (n : Int)

/-- An integer as a word of sixty-four bits, when it is in the range of the word. -/
def int64? (n : Int) : Option Int64 :=
  if Int64.minValue.toInt ≤ n ∧ n ≤ Int64.maxValue.toInt then some (Int64.ofInt n) else none

end DocPath.Text.Numeral
