import DocPath.Path.Walk

/-!
# DocPath.Proofs.Meaning

The **meaning** of a list of operations: a recursive, depth-first account of what a walk gives,
with no stack, no frames and no difference between shared and owned values. A branch is a value
with the captures made on its way; `meaning` gives all its results, those after a failure included,
and `upToError` drops the latter.

The functions on plain values (`Step.on`, `runSteps`, `runAlternatives`) are what the operations on
held values come to once it is forgotten how a value is held (`Step.value_apply`,
`value_applySteps`, `value_evaluate`). The one place where a held sequence could be cut outside its
ends is excluded here: what an index selects lies inside the sequence (`Index.select_slice_le`,
`Index.select_element_lt`), whatever its length.
-/

namespace DocPath

/-! ### Operations on plain values -/

/-- The entry of a mapping, null if it has none; anything else is left as it is. -/
def Value.entry (name : String) : Value → Value
  | mapping entries => (entries.lookup name).getD .null
  | v => v

/-- What an index makes of a value: of a sequence what it selects, all else is left as it is. -/
def Index.on (i : Index) : Value → Value
  | .sequence items =>
    match i.select items.length with
    | .all => .sequence items
    | .element none => .null
    | .element (some n) => items[n]?.getD .null
    | .slice start stop => .sequence ((items.take stop).drop start)
  | v => v

/-- The values of the branches that an index opens from a sequence. An element that is itself a
sequence opens one branch for each of its own elements. -/
def Index.opened (i : Index) (items : List Value) : List Value :=
  match i.select items.length with
  | .all => items
  | .slice start stop => (items.take stop).drop start
  | .element none => []
  | .element (some n) =>
    match items[n]? with
    | some (.sequence inner) => inner
    | some v => [v]
    | none => []

/-- What a step makes of a value. -/
def Step.on (v : Value) : Step → Value
  | key name => v.entry name
  | index i => i.on v
  | default d => if v.isNull then d.value else v
  | capture => v
  | divider => v
  | anyEntry => v

/-- What a step adds to the captured values. -/
def Step.captured (v : Value) : Step → List Value
  | capture => [v]
  | _ => []

/-- What steps in order make of a value, and the captures after them. -/
def runSteps (v : Value) (trail : List Value) : List Step → Value × List Value
  | [] => (v, trail)
  | s :: rest => runSteps (s.on v) (trail ++ s.captured v) rest

/-- The values that alternatives give, each run from the same value, and the captures after all of
them. -/
def runAlternatives (v : Value) (trail : List Value) : List (List Step) → List Value × List Value
  | [] => ([], trail)
  | steps :: rest =>
    let (result, trail) := runSteps v trail steps
    let (results, trail) := runAlternatives v trail rest
    (result :: results, trail)

/-! ### The meaning of operations -/

/-- The item at the end of a branch: its value, or the captures and its value. -/
def leaf (v : Value) (trail : List Value) : Value :=
  if trail.isEmpty then v else .sequence (trail ++ [v])

/-- All results of a branch with operations still to come. -/
def meaning (v : Value) (trail : List Value) : List Op → List (Except WalkError Value)
  | [] => if v.isNull then [] else [.ok (leaf v trail)]
  | op :: rest =>
    if v.isNull && !op.letsNullThrough then []
    else match op with
      | .alternatives paths =>
        let (values, trail) := runAlternatives v trail paths
        [.ok (.sequence (trail ++ values))]
      | .step (.index i) =>
        match v with
        | .sequence items => (i.opened items).flatMap fun item => meaning item trail rest
        | _ => [.error (.notASequence i.text v.kindName)]
      | .step s => meaning (s.on v) (trail ++ s.captured v) rest

/-- The results up to and with the first failure. -/
def upToError : List (Except ε α) → List (Except ε α)
  | [] => []
  | .ok a :: rest => .ok a :: upToError rest
  | .error e :: _ => [.error e]

@[simp] theorem upToError_nil : upToError ([] : List (Except ε α)) = [] := rfl

@[simp] theorem upToError_ok (a : α) (rest : List (Except ε α)) :
    upToError (.ok a :: rest) = .ok a :: upToError rest := rfl

@[simp] theorem upToError_error (e : ε) (rest : List (Except ε α)) :
    upToError (.error e :: rest) = [.error e] := rfl

theorem mem_of_mem_upToError {r : Except ε α} {results : List (Except ε α)}
    (h : r ∈ upToError results) : r ∈ results := by
  induction results with
  | nil => cases h
  | cons first rest ih =>
    cases first with
    | error e => exact List.mem_cons.2 (Or.inl (List.mem_singleton.1 h))
    | ok a => exact List.mem_cons.2 ((List.mem_cons.1 h).imp_right ih)

/-- The results that a path means for a document. -/
def Path.meaning (p : Path) (root : Value) : List (Except WalkError Value) :=
  upToError (DocPath.meaning root [] p.ops)

/-! ### What an index selects lies inside the sequence -/

/-- A length as a word is no more than the length, even where the word wraps. -/
theorem toInt_ofNat_le (n : Nat) : (Int64.ofNat n).toInt ≤ n := by
  rw [Int64.toInt_ofNat']
  have h : (n : Int).bmod Int64.size = n % Int64.size ∨
      (n : Int).bmod Int64.size = n % Int64.size - Int64.size := by
    unfold Int.bmod
    dsimp only
    split
    · exact Or.inl rfl
    · exact Or.inr rfl
  have hmod : (n : Int) % Int64.size ≤ n := by
    exact_mod_cast Nat.mod_le n Int64.size
  rcases h with h | h
  · rw [h]
    exact hmod
  · rw [h]
    have : (0 : Int) ≤ Int64.size := by decide
    omega

theorem resolvePosition_lt {n : Int64} {length k : Nat} (h : resolvePosition n length = some k) :
    k < length := by
  unfold resolvePosition at h
  dsimp only at h
  split at h
  next hrange =>
    obtain rfl := Option.some.inj h
    have hle := toInt_ofNat_le length
    have hlow := Int64.le_iff_toInt_le.1 hrange.1
    have hhigh := Int64.lt_iff_toInt_lt.1 hrange.2
    rw [Int64.toInt_zero] at hlow
    rw [Int64.toNatClampNeg]
    omega
  next => simp at h

theorem Bound.resolve_le {b : Bound} {unbounded length : Nat} (h : unbounded ≤ length) :
    b.resolve unbounded length ≤ length := by
  cases b with
  | wildcard => exact h
  | «at» n =>
    have hle := toInt_ofNat_le length
    have hmin : (min (fromStart n (Int64.ofNat length)) (Int64.ofNat length)).toInt ≤
        (Int64.ofNat length).toInt := by
      show (if _ ≤ _ then _ else _ : Int64).toInt ≤ _
      split
      next hlt => exact Int64.le_iff_toInt_le.1 hlt
      next => exact Int.le_refl _
    show (if _ ≤ _ then _ else _ : Int64).toNatClampNeg ≤ length
    rw [Int64.toNatClampNeg]
    split
    next => omega
    next => simp

theorem Index.select_slice_le {i : Index} {length start stop : Nat}
    (h : i.select length = .slice start stop) : start ≤ stop ∧ stop ≤ length := by
  unfold Index.select at h
  split at h
  · split at h <;> simp at h
  · simp only [Selection.slice.injEq] at h
    obtain ⟨rfl, rfl⟩ := h
    have h₁ : i.start.resolve 0 length ≤ length := Bound.resolve_le (Nat.zero_le _)
    have h₂ : i.stop.resolve length length ≤ length := Bound.resolve_le (Nat.le_refl _)
    omega

theorem Index.select_element_lt {i : Index} {length n : Nat}
    (h : i.select length = .element (some n)) : n < length := by
  unfold Index.select at h
  split at h
  · split at h
    · simp at h
    · simp only [Selection.element.injEq] at h
      exact resolvePosition_lt h
  · simp at h

/-! ### Operations on held values

Each operation on a held value comes to the operation on the value itself, however it is held. -/

namespace Held

@[simp] theorem value_shared (v : Value) : (shared v).value = v := rfl

@[simp] theorem value_owned (v : Value) : (owned v).value = v := rfl

theorem map_value_shared (vs : List Value) : (vs.map shared).map value = vs := by
  simp [Function.comp_def]

theorem map_value_owned (vs : List Value) : (vs.map owned).map value = vs := by
  simp [Function.comp_def]

/-- Between two places inside a sequence there are elements to be cut out, however it is held. -/
theorem exists_elements? {h : Held} {items : List Value} {start stop : Nat}
    (hv : h.value = .sequence items) (hstart : start ≤ stop) (hstop : stop ≤ items.length) :
    ∃ found, h.elements? start stop = some found ∧
      found.map value = (items.take stop).drop start := by
  cases h with
  | shared v =>
    obtain rfl : v = .sequence items := hv
    exact ⟨_, if_pos ⟨hstart, hstop⟩, map_value_shared _⟩
  | owned v =>
    obtain rfl : v = .sequence items := hv
    have hkept : start ≤ (items.take stop).length := by
      rw [List.length_take]
      omega
    exact ⟨_, if_pos hkept, map_value_owned _⟩

theorem map_value_elements {h : Held} {items : List Value} {start stop : Nat}
    (hv : h.value = .sequence items) (hstart : start ≤ stop) (hstop : stop ≤ items.length) :
    (h.elements start stop).map value = (items.take stop).drop start := by
  obtain ⟨found, hfound, hitems⟩ := exists_elements? hv hstart hstop
  rw [elements, hfound, Option.getD_some, hitems]

/-- The one element at a place inside a sequence. -/
theorem map_value_element {h : Held} {items : List Value} {n : Nat} {v : Value}
    (hv : h.value = .sequence items) (hn : items[n]? = some v) :
    ∃ element, (h.elements n (n + 1)).getLast? = some element ∧ element.value = v := by
  obtain ⟨hlt, hget⟩ := List.getElem?_eq_some_iff.1 hn
  have hmap : (h.elements n (n + 1)).map value = [v] := by
    rw [map_value_elements hv (Nat.le_succ n) hlt, List.drop_take, List.drop_eq_getElem_cons hlt,
      Nat.succ_sub (Nat.le_refl n), Nat.sub_self, List.take_succ_cons, List.take_zero, hget]
  obtain ⟨element, hel, rfl⟩ := List.map_eq_singleton_iff.1 hmap
  exact ⟨element, by rw [hel]; rfl, rfl⟩

theorem value_entry (h : Held) (name : String) : (h.entry name).value = h.value.entry name := by
  rcases h with v | v
  · cases v <;> rfl
  · cases v with
    | mapping entries =>
      have htake := Entries.take?_fst name entries
      simp only [entry, value_owned, Value.entry, ← htake]
      cases Entries.take? name entries <;> rfl
    | _ => rfl

end Held

theorem Index.value_apply (i : Index) (h : Held) : (i.apply h).value = i.on h.value := by
  unfold Index.apply
  split
  next items hv =>
    rw [hv, Index.on]
    cases hs : i.select items.length with
    | all => exact hv
    | element found =>
      cases found with
      | none => rfl
      | some n =>
        have hget := List.getElem?_eq_getElem (select_element_lt hs)
        obtain ⟨element, hel, hvalue⟩ := Held.map_value_element hv hget
        simp only [hel, hget, Option.getD_some, hvalue]
    | slice start stop =>
      obtain ⟨h₁, h₂⟩ := select_slice_le hs
      simp only [Held.value_owned, Held.map_value_elements hv h₁ h₂]
  next hne =>
    unfold Index.on
    split
    next items hv => exact absurd hv (hne items)
    next => rfl

theorem Index.value_branches (i : Index) {h : Held} {items : List Value}
    (hv : h.value = .sequence items) :
    (i.branches items.length h).map Held.value = i.opened items := by
  unfold Index.branches Index.opened
  cases hs : i.select items.length with
  | all =>
    simp only [Held.map_value_elements hv (Nat.zero_le _) (Nat.le_refl _)]
    rw [List.take_length, List.drop_zero]
  | slice start stop =>
    obtain ⟨h₁, h₂⟩ := select_slice_le hs
    exact Held.map_value_elements hv h₁ h₂
  | element found =>
    cases found with
    | none => rfl
    | some n =>
      have hget := List.getElem?_eq_getElem (select_element_lt hs)
      obtain ⟨element, hel, hvalue⟩ := Held.map_value_element hv hget
      simp only [hel, hget, ← hvalue]
      split
      next inner hinner =>
        rw [Held.map_value_elements hinner (Nat.zero_le _) (Nat.le_refl _), hinner]
        simp
      next hne =>
        split
        next inner hinner => exact absurd (Option.some.inj hinner) (hne inner)
        next v _ hv' => rw [← Option.some.inj hv']; rfl
        next hnone => simp at hnone

theorem Default.value_apply (d : Default) (h : Held) :
    (d.apply h).value = if h.value.isNull then d.value else h.value := by
  unfold Default.apply Held.isNull
  split <;> rfl

/-- What a step makes of a held value and a trail, on plain values. -/
theorem Step.value_apply (s : Step) (h : Held) (trail : Trail) :
    (s.apply h trail).1.value = s.on h.value ∧
      (s.apply h trail).2.map Held.value = trail.map Held.value ++ s.captured h.value := by
  cases s with
  | key name => exact ⟨h.value_entry name, (List.append_nil _).symm⟩
  | index i => exact ⟨i.value_apply h, (List.append_nil _).symm⟩
  | default d => exact ⟨d.value_apply h, (List.append_nil _).symm⟩
  | capture => exact ⟨rfl, List.map_append⟩
  | divider => exact ⟨rfl, (List.append_nil _).symm⟩
  | anyEntry => exact ⟨rfl, (List.append_nil _).symm⟩

theorem applySteps_append (h : Held) (trail : Trail) (steps rest : List Step) :
    applySteps h trail (steps ++ rest) =
      applySteps (applySteps h trail steps).1 (applySteps h trail steps).2 rest := by
  induction steps generalizing h trail with
  | nil => rfl
  | cons s steps ih => exact ih _ _

theorem value_applySteps (steps : List Step) (h : Held) (trail : Trail) :
    (applySteps h trail steps).1.value = (runSteps h.value (trail.map Held.value) steps).1 ∧
      (applySteps h trail steps).2.map Held.value =
        (runSteps h.value (trail.map Held.value) steps).2 := by
  induction steps generalizing h trail with
  | nil => exact ⟨rfl, rfl⟩
  | cons s rest ih =>
    obtain ⟨hvalue, htrail⟩ := s.value_apply h trail
    have ih := ih (s.apply h trail).1 (s.apply h trail).2
    rw [hvalue, htrail] at ih
    exact ih

theorem value_evaluate (paths : List (List Step)) (h : Held) (trail : Trail) :
    (evaluate h trail paths).1 = (runAlternatives h.value (trail.map Held.value) paths).1 ∧
      (evaluate h trail paths).2.map Held.value =
        (runAlternatives h.value (trail.map Held.value) paths).2 := by
  induction paths generalizing trail with
  | nil => exact ⟨rfl, rfl⟩
  | cons steps rest ih =>
    obtain ⟨hvalue, htrail⟩ := value_applySteps steps h trail
    obtain ⟨hvalues, htrails⟩ := ih (applySteps h trail steps).2
    rw [htrail] at hvalues htrails
    simp only [evaluate, runAlternatives, hvalue, hvalues]
    exact ⟨trivial, htrails⟩

end DocPath
