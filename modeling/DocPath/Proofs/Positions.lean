import DocPath.Proofs.Meaning

/-!
# DocPath.Proofs.Positions

Positions in exact numbers. A position and a length are words of sixty-four bits, and counting a
negative position from the end adds them. As long as the length is a word at all the sum does not
wrap (`toInt_fromStart`), so a position is found to lie outside a sequence exactly if it does
(`resolvePosition_eq_none_iff`), and a bound is moved to the end that is nearest to its place
(`Bound.cast_resolve`).
-/

namespace DocPath

/-- Whether a position, counted from either end, lies outside a sequence of a length. -/
def OutOfRange (n : Int64) (length : Nat) : Prop :=
  length ≤ n.toInt ∨ n.toInt < -length

variable {n : Int64} {length : Nat}

/-- Only lengths that are words have positions outside. -/
theorem OutOfRange.le (h : OutOfRange n length) : length ≤ Int64.maxValue.toInt := by
  have hlow := n.le_toInt
  have hhigh := n.toInt_lt
  rw [Int64.toInt_maxValue]
  unfold OutOfRange at h
  omega

theorem toInt_length (h : length ≤ Int64.maxValue.toInt) :
    (Int64.ofNat length).toInt = length := by
  rw [Int64.toInt_maxValue] at h
  exact Int64.toInt_ofNat_of_lt (by omega)

/-- Counting from the end does not wrap. -/
theorem toInt_fromStart (h : length ≤ Int64.maxValue.toInt) (n : Int64) :
    (fromStart n (Int64.ofNat length)).toInt =
      if n.toInt < 0 then length + n.toInt else n.toInt := by
  have hlow := n.le_toInt
  have hneg : n < 0 ↔ n.toInt < 0 := Int64.lt_iff_toInt_lt
  rw [fromStart]
  by_cases hn : n.toInt < 0
  · rw [if_pos (hneg.2 hn), if_pos hn, Int64.toInt_add, toInt_length h]
    rw [Int64.toInt_maxValue] at h
    exact Int.bmod_eq_of_le (by omega) (by omega)
  · rw [if_neg (mt hneg.1 hn), if_neg hn]

/-- The test of a position finds it inside exactly if it does not lie outside. -/
theorem fromStart_inside_iff (h : length ≤ Int64.maxValue.toInt) :
    0 ≤ fromStart n (Int64.ofNat length) ∧ fromStart n (Int64.ofNat length) < Int64.ofNat length ↔
      ¬ OutOfRange n length := by
  rw [Int64.le_iff_toInt_le, Int64.lt_iff_toInt_lt, Int64.toInt_zero, toInt_length h,
    toInt_fromStart h, OutOfRange]
  split <;> omega

/-- There is no element at a position exactly if it lies outside. -/
theorem resolvePosition_eq_none_iff (h : length ≤ Int64.maxValue.toInt) :
    resolvePosition n length = none ↔ OutOfRange n length := by
  rw [resolvePosition]
  by_cases hout : OutOfRange n length
  · rw [if_neg (fun hin => (fromStart_inside_iff h).1 hin hout)]
    exact iff_of_true rfl hout
  · rw [if_pos ((fromStart_inside_iff h).2 hout)]
    exact iff_of_false nofun hout

/-- There is an element at a position exactly if it does not lie outside, and it is where counting
from the start leads. -/
theorem resolvePosition_eq_some_iff (h : length ≤ Int64.maxValue.toInt) {k : Nat} :
    resolvePosition n length = some k ↔
      ¬ OutOfRange n length ∧ (k : Int) = if n.toInt < 0 then length + n.toInt else n.toInt := by
  rw [resolvePosition]
  by_cases hout : OutOfRange n length
  · rw [if_neg (fun hin => (fromStart_inside_iff h).1 hin hout)]
    exact iff_of_false nofun fun hk => hk.1 hout
  · have hin := (fromStart_inside_iff h).2 hout
    have hlow := Int64.le_iff_toInt_le.1 hin.1
    rw [Int64.toInt_zero] at hlow
    rw [if_pos hin, Option.some.injEq, Int64.toNatClampNeg, ← toInt_fromStart h]
    constructor
    · rintro rfl
      exact ⟨hout, Int.toNat_of_nonneg hlow⟩
    · rintro ⟨-, hp⟩
      omega

/-! ### The ends of slices -/

/-- The place that a bound asks for, counted from the start. A missing bound asks for the place
`missing`. -/
def Bound.place (missing length : Nat) : Bound → Int
  | wildcard => missing
  | .at n => if n.toInt < 0 then length + n.toInt else n.toInt

theorem toInt_max (m n : Int64) : (max m n).toInt = max m.toInt n.toInt := by
  show (if m ≤ n then n else m : Int64).toInt = _
  rw [Int.max_def]
  simp only [Int64.le_iff_toInt_le]
  split <;> rfl

theorem toInt_min (m n : Int64) : (min m n).toInt = min m.toInt n.toInt := by
  show (if m ≤ n then m else n : Int64).toInt = _
  rw [Int.min_def]
  simp only [Int64.le_iff_toInt_le]
  split <;> rfl

/-- A bound resolves to the place that it asks for, moved to the nearest end. -/
theorem Bound.cast_resolve {missing : Nat} (h : length ≤ Int64.maxValue.toInt)
    (hmissing : missing ≤ length) (b : Bound) :
    (b.resolve missing length : Int) = max 0 (min (b.place missing length) length) := by
  cases b with
  | wildcard =>
    rw [resolve, place]
    omega
  | «at» n =>
    rw [resolve, place, ← toInt_fromStart h, Int64.toNatClampNeg, toInt_max, toInt_min,
      toInt_length h, Int64.toInt_zero]
    omega

end DocPath
