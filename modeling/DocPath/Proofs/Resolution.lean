import DocPath.Proofs.Ownership

/-!
# DocPath.Proofs.Resolution

An index is resolved exactly, at every length that is a word. Resolving computes on words, so it is
compared with two other accounts. The functions with names in `Exact?` take the same steps but give
up as soon as a word wraps; they never do (`Index.selectExact?_eq`). The other account does not
compute on words at all: it picks items by exact places (`Index.pick`), and they are the same
(`Index.on_eq_pick`).
-/

namespace DocPath

/-! ### Words that do not wrap -/

/-- A length as a word, unless it is too long for one. -/
def word? (length : Nat) : Option Int64 :=
  if (Int64.ofNat length).toInt = length then some (Int64.ofNat length) else none

/-- The sum of two words, unless it wraps. -/
def sum? (m n : Int64) : Option Int64 :=
  if (m + n).toInt = m.toInt + n.toInt then some (m + n) else none

/-- A word as a natural number, unless it is negative. -/
def nat? (n : Int64) : Option Nat :=
  if 0 ≤ n then some n.toNatClampNeg else none

/-- A word moved to the nearest of two ends, unless these are crossed. -/
def clamp? (low high n : Int64) : Option Int64 :=
  if low ≤ high then some (max low (min n high)) else none

/-- `fromStart`, unless a word wraps. -/
def fromStartExact? (n length : Int64) : Option Int64 :=
  if n < 0 then sum? length n else some n

/-- `resolvePosition`, unless a word wraps. -/
def resolvePositionExact? (n : Int64) (length : Nat) : Option (Option Nat) := do
  let length ← word? length
  let position ← fromStartExact? n length
  if 0 ≤ position ∧ position < length then (nat? position).map some else some none

/-- `Bound.resolve`, unless a word wraps. -/
def Bound.resolveExact? (unbounded length : Nat) : Bound → Option Nat
  | wildcard => some unbounded
  | .at n => do
    let length ← word? length
    let position ← fromStartExact? n length
    let place ← clamp? 0 length position
    nat? place

/-- `Index.select`, unless a word wraps. -/
def Index.selectExact? (i : Index) (length : Nat) : Option Selection :=
  match i.mode with
  | .single =>
    match i.start with
    | .wildcard => some .all
    | .at n => (resolvePositionExact? n length).map .element
  | .range => do
    let start ← i.start.resolveExact? 0 length
    let stop ← i.stop.resolveExact? length length
    some (.slice start (max stop start))

variable {n : Int64} {length : Nat}

theorem word?_eq (h : length ≤ Int64.maxValue.toInt) :
    word? length = some (Int64.ofNat length) :=
  if_pos (toInt_length h)

theorem nat?_eq (h : 0 ≤ n) : nat? n = some n.toNatClampNeg :=
  if_pos h

theorem fromStartExact?_eq (h : length ≤ Int64.maxValue.toInt) (n : Int64) :
    fromStartExact? n (Int64.ofNat length) = some (fromStart n (Int64.ofNat length)) := by
  have hsum := toInt_fromStart h n
  rw [fromStart] at hsum ⊢
  rw [fromStartExact?]
  by_cases hn : n < 0
  · have hneg : n.toInt < 0 := Int64.lt_iff_toInt_lt.1 hn
    rw [if_pos hn, if_pos hneg, ← toInt_length h] at hsum
    rw [if_pos hn, if_pos hn, sum?, if_pos hsum]
  · rw [if_neg hn, if_neg hn]

theorem resolvePositionExact?_eq (h : length ≤ Int64.maxValue.toInt) (n : Int64) :
    resolvePositionExact? n length = some (resolvePosition n length) := by
  simp only [resolvePositionExact?, resolvePosition, word?_eq h, fromStartExact?_eq h,
    Option.bind_eq_bind, Option.bind_some]
  split
  next hin => rw [nat?_eq hin.1, Option.map_some]
  next => rfl

theorem Bound.resolveExact?_eq (h : length ≤ Int64.maxValue.toInt) (unbounded : Nat) (b : Bound) :
    b.resolveExact? unbounded length = some (b.resolve unbounded length) := by
  cases b with
  | wildcard => rfl
  | «at» n =>
    -- The ends are in order, and what is moved between them is not negative.
    have hends : 0 ≤ Int64.ofNat length := by
      rw [Int64.le_iff_toInt_le, toInt_length h, Int64.toInt_zero]
      omega
    have hplace : 0 ≤ max 0 (min (fromStart n (Int64.ofNat length)) (Int64.ofNat length)) := by
      rw [Int64.le_iff_toInt_le, toInt_max, Int64.toInt_zero]
      omega
    simp only [resolveExact?, resolve, word?_eq h, fromStartExact?_eq h, clamp?, if_pos hends,
      nat?_eq hplace, Option.bind_eq_bind, Option.bind_some]

namespace Index

/-- No word wraps while an index is resolved. -/
theorem selectExact?_eq (h : length ≤ Int64.maxValue.toInt) (i : Index) :
    i.selectExact? length = some (i.select length) := by
  obtain ⟨start, stop, mode⟩ := i
  cases mode with
  | single =>
    cases start with
    | wildcard => rfl
    | «at» n => simp only [selectExact?, select, resolvePositionExact?_eq h, Option.map_some]
  | range =>
    simp only [selectExact?, select, Bound.resolveExact?_eq h, Option.bind_eq_bind,
      Option.bind_some]

end Index

/-! ### Items by exact places -/

/-- The item at a place, null if there is none. -/
def itemAt (items : List Value) (place : Int) : Value :=
  if 0 ≤ place then items[place.toNat]?.getD .null else .null

/-- The items from one place up to another, in order. -/
def itemsBetween (items : List Value) (start stop : Int) : List Value :=
  (items.zipIdx.filter fun item => start ≤ item.2 ∧ item.2 < stop).map Prod.fst

/-- What an index picks from items, by the places that its bounds ask for. -/
def Index.pick (i : Index) (items : List Value) : Value :=
  match i.mode, i.start with
  | .single, .wildcard => .sequence items
  | .single, .at n => itemAt items ((Bound.at n).place 0 items.length)
  | .range, start =>
    .sequence (itemsBetween items (start.place 0 items.length)
      (i.stop.place items.length items.length))

/-- Cutting a list keeps the items whose places lie between the cuts. -/
theorem take_drop_eq_filter (items : List Value) (first start stop : Nat) :
    (items.take stop).drop start = ((items.zipIdx first).filter fun item =>
      first + start ≤ item.2 ∧ item.2 < first + stop).map Prod.fst := by
  induction items generalizing first start stop with
  | nil => simp
  | cons v items ih =>
    rw [List.zipIdx_cons]
    cases stop with
    | zero =>
      rw [List.take_zero, List.drop_nil, List.filter_eq_nil_iff.2, List.map_nil]
      intro item _
      rw [decide_eq_true_iff]
      omega
    | succ stop =>
      cases start with
      | zero =>
        -- The first item is kept. No place of the others comes before the first one of theirs.
        rw [List.filter_cons_of_pos (by simp), List.map_cons, List.take_succ_cons, List.drop_zero]
        refine congrArg (v :: ·) ((ih (first + 1) 0 stop).trans ?_)
        refine congrArg (List.map Prod.fst) (List.filter_congr fun item hitem => ?_)
        have hle := List.le_snd_of_mem_zipIdx hitem
        rw [decide_eq_decide]
        omega
      | succ start =>
        rw [List.filter_cons_of_neg (by simp), List.take_succ_cons, List.drop_succ_cons,
          ih (first + 1) start stop]
        simp only [Nat.add_right_comm, Nat.add_assoc]

@[simp] theorem itemAt_natCast (items : List Value) (p : Nat) :
    itemAt items p = items[p]?.getD .null := by
  rw [itemAt, if_pos (Int.natCast_nonneg p), Int.toNat_natCast]

/-- There is no item at a place outside. -/
theorem itemAt_outOfRange {items : List Value} {missing : Nat} (h : OutOfRange n items.length) :
    itemAt items ((Bound.at n).place missing items.length) = .null := by
  have hplace : (Bound.at n).place missing items.length < 0 ∨
      items.length ≤ (Bound.at n).place missing items.length := by
    unfold OutOfRange at h
    rw [Bound.place]
    omega
  rw [itemAt]
  rcases hplace with hlow | hhigh
  · rw [if_neg (Int.not_le.2 hlow)]
  · rw [if_pos (by omega), List.getElem?_eq_none (by omega), Option.getD_none]

namespace Index

variable {stop : Bound}

theorem select_single (n : Int64) (stop : Bound) (length : Nat) :
    (Index.mk (.at n) stop .single).select length = .element (resolvePosition n length) := rfl

/-- A single position selects an element exactly if it counts inside, from one end or the other. -/
theorem select_eq_element_some_iff (h : length ≤ Int64.maxValue.toInt) {p : Nat} :
    (Index.mk (.at n) stop .single).select length = .element (some p) ↔
      (-length ≤ n.toInt ∧ n.toInt < length) ∧
        (p : Int) = if 0 ≤ n.toInt then n.toInt else length + n.toInt := by
  rw [select_single, Selection.element.injEq, resolvePosition_eq_some_iff h, OutOfRange]
  split <;> split <;> omega

theorem select_eq_element_none_iff (h : length ≤ Int64.maxValue.toInt) :
    (Index.mk (.at n) stop .single).select length = .element none ↔
      ¬ (-length ≤ n.toInt ∧ n.toInt < length) := by
  rw [select_single, Selection.element.injEq, resolvePosition_eq_none_iff h, OutOfRange]
  omega

/-- The places of a slice are those that lie between the places that its bounds ask for. -/
theorem mem_slice_iff (h : length ≤ Int64.maxValue.toInt) (start stop : Bound) (p : Nat) :
    start.resolve 0 length ≤ p ∧ p < max (stop.resolve length length) (start.resolve 0 length) ↔
      p < length ∧ start.place 0 length ≤ p ∧ p < stop.place length length := by
  have hstart := start.cast_resolve h (Nat.zero_le length)
  have hstop := stop.cast_resolve h (Nat.le_refl length)
  omega

/-- What an index makes of a sequence is what it picks from the items by exact places. -/
theorem on_eq_pick {items : List Value} (i : Index) (h : items.length ≤ Int64.maxValue.toInt) :
    i.on (.sequence items) = i.pick items := by
  obtain ⟨start, stop, mode⟩ := i
  cases mode with
  | single =>
    cases start with
    | wildcard => rfl
    | «at» n =>
      simp only [on, pick, select_single]
      cases hfound : resolvePosition n items.length with
      | none => rw [itemAt_outOfRange ((resolvePosition_eq_none_iff h).1 hfound)]
      | some p =>
        obtain ⟨-, hp⟩ := (resolvePosition_eq_some_iff h).1 hfound
        rw [Bound.place, ← hp, itemAt_natCast]
  | range =>
    have hcut := take_drop_eq_filter items 0
    simp only [on, pick, select, hcut, itemsBetween]
    refine congrArg (fun kept => Value.sequence (List.map Prod.fst kept)) ?_
    refine List.filter_congr fun item hitem => ?_
    have hlt := List.snd_lt_of_mem_zipIdx hitem
    have hplaces := mem_slice_iff h start stop item.2
    rw [decide_eq_decide]
    omega

end Index

/-- **Resolving an index is exact and stays inside.** At every length that is a word, no word wraps
while an index is resolved. A single position selects an element exactly if it counts inside from
one of the ends, and none otherwise. A slice has its ends in order and inside, and between them
exactly those places of the sequence that lie between the places that the bounds ask for. Applied to
a sequence of that length, however it is held, the index gives without a cut outside what it picks
by these places. All else it leaves as it is. -/
theorem index_exact (h : length ≤ Int64.maxValue.toInt) (i : Index) :
    i.selectExact? length = some (i.select length) ∧
    (∀ n, i.mode = .single → i.start = .at n →
      (∀ p, i.select length = .element (some p) ↔ (-length ≤ n.toInt ∧ n.toInt < length) ∧
        (p : Int) = if 0 ≤ n.toInt then n.toInt else length + n.toInt) ∧
      (i.select length = .element none ↔ ¬ (-length ≤ n.toInt ∧ n.toInt < length))) ∧
    (i.mode = .single → i.start = .wildcard → i.select length = .all) ∧
    (i.mode = .range → ∃ start stop, i.select length = .slice start stop ∧
      start ≤ stop ∧ stop ≤ length ∧ ∀ p : Nat, start ≤ p ∧ p < stop ↔
        p < length ∧ i.start.place 0 length ≤ p ∧ p < i.stop.place length length) ∧
    (∀ held items, held.value = .sequence items → items.length = length →
      i.applyWithin? held = some (i.apply held) ∧ (i.apply held).value = i.pick items) ∧
    ∀ held : Held, (∀ items, held.value ≠ .sequence items) → i.apply held = held := by
  refine ⟨i.selectExact?_eq h, ?_, ?_, ?_, ?_, ?_⟩
  · obtain ⟨start, stop, mode⟩ := i
    rintro n rfl rfl
    exact ⟨fun _ => Index.select_eq_element_some_iff h, Index.select_eq_element_none_iff h⟩
  · obtain ⟨start, stop, mode⟩ := i
    rintro rfl rfl
    rfl
  · obtain ⟨start, stop, mode⟩ := i
    rintro rfl
    obtain ⟨hcross, hinside⟩ := Index.select_slice_le (i := ⟨start, stop, .range⟩) rfl
    exact ⟨_, _, rfl, hcross, hinside, Index.mem_slice_iff h start stop⟩
  · rintro held items hv rfl
    exact ⟨i.applyWithin?_eq held, by rw [Index.value_apply, hv, Index.on_eq_pick i h]⟩
  · intro held hne
    unfold Index.apply
    split
    next items hv => exact absurd hv (hne items)
    next => rfl

/-- The bound that is furthest from the end, and one that counts from the end. -/
theorem index_exact_furthest :
    let i := Index.slice (.at Int64.minValue) (.at (-1))
    let items : List Value := [.bool true, .null, .bool false]
    items.length ≤ Int64.maxValue.toInt ∧ i.selectExact? 3 = some (.slice 0 2) ∧
      (i.apply (.owned (.sequence items))).value = .sequence [.bool true, .null] := by
  intro i items
  have hlength : items.length ≤ Int64.maxValue.toInt := by decide
  obtain ⟨hselect, -, -, -, happly, -⟩ := index_exact hlength i
  refine ⟨hlength, hselect.trans (by decide), ?_⟩
  exact (happly (.owned (.sequence items)) items rfl rfl).2.trans rfl

end DocPath
