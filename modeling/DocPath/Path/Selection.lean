import DocPath.Path.Basic

/-!
# DocPath.Path.Selection

What an index selects from a sequence of a given length. Positions are words of sixty-four bits;
a negative one counts from the end. A single position outside the sequence selects nothing, the
bounds of a slice are moved to the nearest end.
-/

namespace DocPath

/-- What an index selects from a sequence. -/
inductive Selection where
  /-- The element at a position, or none if the position is outside. -/
  | element (position : Option Nat)
  /-- The whole sequence. -/
  | all
  /-- The elements from `start` up to `stop`, which is not included. -/
  | slice (start stop : Nat)
  deriving DecidableEq, Repr

/-- A position counted from the start of a sequence. -/
def fromStart (n length : Int64) : Int64 :=
  if n < 0 then length + n else n

/-- The element of a sequence at a position. -/
def resolvePosition (n : Int64) (length : Nat) : Option Nat :=
  let length := Int64.ofNat length
  let position := fromStart n length
  if 0 ≤ position ∧ position < length then some position.toNatClampNeg else none

/-- The end of a slice that a bound gives: a missing bound gives `unbounded`. -/
def Bound.resolve (unbounded length : Nat) : Bound → Nat
  | wildcard => unbounded
  | .at n =>
    let length := Int64.ofNat length
    (max 0 (min (fromStart n length) length)).toNatClampNeg

/-- What the index selects from a sequence of a length. -/
def Index.select (i : Index) (length : Nat) : Selection :=
  match i.mode with
  | .single =>
    match i.start with
    | .wildcard => .all
    | .at n => .element (resolvePosition n length)
  | .range =>
    let start := i.start.resolve 0 length
    let stop := i.stop.resolve length length
    .slice start (max stop start)

end DocPath
