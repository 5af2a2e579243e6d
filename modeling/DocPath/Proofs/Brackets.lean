import DocPath.Proofs.Delimiters
import DocPath.Proofs.Grammar

/-!
# DocPath.Proofs.Brackets

The readers of what stands in brackets accept exactly the texts of the grammar:
`readBound_eq_ok_iff`, `readIndex_eq_ok_iff` and `readDefault_eq_ok_iff`.
-/

namespace DocPath

open DocPath.Text

/-! ### Integers -/

theorem isDigitIn_ten {c : Char} (h : c.isDigit = true) : Numeral.isDigitIn 10 c = true := by
  simp only [Char.isDigit, Bool.and_eq_true, decide_eq_true_eq, ge_iff_le] at h
  have hlow : '0' ≤ c := h.1
  have hhigh : c ≤ '9' := h.2
  have hnat : c.toNat ≤ 57 := UInt32.le_iff_toNat_le.1 h.2
  have hzero : ('0' : Char).toNat = 48 := rfl
  simp only [Numeral.isDigitIn, Numeral.digitValue, hlow, hhigh, decide_true, Bool.and_self,
    if_true, decide_eq_true_eq]
  omega

theorem Digits.readNat? {text : List Char} (h : Digits text) :
    Numeral.readNat? 10 text = some (Numeral.value 10 text) := by
  have hall : text.all (Numeral.isDigitIn 10) = true :=
    List.all_eq_true.2 fun c hc => isDigitIn_ten (h.isDigit c hc)
  have hempty : text.isEmpty = false := by
    cases text with
    | nil => exact absurd rfl h.ne_nil
    | cons => rfl
  rw [Numeral.readNat?, hempty, hall]
  rfl

theorem Digits.readInt? {text : List Char} (h : Digits text) :
    Numeral.readInt? 10 text = some (Numeral.value 10 text : Int) := by
  unfold Numeral.readInt?
  split
  next digits =>
    have := h.isDigit '-' List.mem_cons_self
    simp at this
  next digits =>
    have := h.isDigit '+' List.mem_cons_self
    simp at this
  next => rw [h.readNat?]; rfl

theorem Digits.readInt?_minus {text : List Char} (h : Digits text) :
    Numeral.readInt? 10 ('-' :: text) = some (-(Numeral.value 10 text : Int)) := by
  rw [Numeral.readInt?, h.readNat?]
  rfl

theorem int64?_eq_some_iff {n : Int} {w : Int64} : Numeral.int64? n = some w ↔ w.toInt = n := by
  unfold Numeral.int64?
  split
  next hrange =>
    rw [Option.some.injEq]
    have hofInt : (Int64.ofInt n).toInt = n := Int64.toInt_ofInt_of_le hrange.1 (by
      have : Int64.maxValue.toInt < 2 ^ 63 := by decide
      omega)
    constructor
    · intro heq
      subst heq
      exact hofInt
    · intro h
      exact Int64.toInt.inj (by rw [hofInt, h])
  next hrange =>
    constructor
    · intro h
      simp at h
    · intro heq
      subst heq
      exact absurd ⟨w.minValue_le_toInt, w.toInt_le⟩ hrange

theorem isIntegerText_iff {text : List Char} : isIntegerText text = true ↔
    Digits text ∨ ∃ digits, text = '-' :: digits ∧ Digits digits := by
  have hdigits : ∀ digits : List Char, (!digits.isEmpty && digits.all Char.isDigit) = true ↔
      Digits digits := by
    intro digits
    rw [Bool.and_eq_true, List.all_eq_true, Bool.not_eq_true', List.isEmpty_eq_false_iff]
    exact ⟨fun h => ⟨h.1, h.2⟩, fun h => ⟨h.ne_nil, h.isDigit⟩⟩
  unfold isIntegerText
  split
  next digits =>
    rw [hdigits]
    constructor
    · intro h
      exact Or.inr ⟨digits, rfl, h⟩
    · rintro (h | ⟨_, heq, h⟩)
      · have := h.isDigit '-' List.mem_cons_self
        simp at this
      · rw [List.cons.injEq] at heq
        rw [heq.2]
        exact h
  next hne =>
    rw [hdigits]
    constructor
    · exact Or.inl
    · rintro (h | ⟨digits, rfl, _⟩)
      · exact h
      · exact absurd rfl (hne digits)

/-! ### Bounds -/

variable {d : Delimiters}

theorem isBlank_of_isDigit {c : Char} (h : c.isDigit = true) : isBlank c = false := by
  simp only [Char.isDigit, Bool.and_eq_true, decide_eq_true_eq, ge_iff_le,
    UInt32.le_iff_toNat_le] at h
  have hval : c.toNat = c.val.toNat := rfl
  simp at h
  simp only [isBlank, Bool.or_eq_false_iff, Bool.and_eq_false_iff, decide_eq_false_iff_not,
    beq_eq_false_iff_ne, ne_eq]
  omega

/-- The characters of a bound. -/
theorem SpellsBound.mem {text : List Char} {b : Bound} (h : SpellsBound d text b) {c : Char}
    (hc : c ∈ text) : c = d.wildcard ∨ c = '-' ∨ c.isDigit = true := by
  cases h with
  | wildcard => exact Or.inl (List.mem_singleton.1 hc)
  | positive hdigits => exact Or.inr (Or.inr (hdigits.isDigit c hc))
  | negative hdigits =>
    rcases List.mem_cons.1 hc with rfl | hc
    · exact Or.inr (Or.inl rfl)
    · exact Or.inr (Or.inr (hdigits.isDigit c hc))

theorem SpellsBound.trim_eq {text : List Char} {b : Bound} (hd : d.Legal)
    (h : SpellsBound d text b) : trim text = text := by
  refine trim_of_forall fun c hc => ?_
  rcases h.mem hc with rfl | rfl | hdigit
  · exact hd.notBlank .wildcard
  · decide
  · exact isBlank_of_isDigit hdigit

/-- A bound is read exactly from the texts that spell it, blanks around them. -/
theorem readBound_eq_ok_iff (hd : d.Legal) {text : List Char} {b : Bound} :
    readBound d text = .ok b ↔ ∃ core, SpellsBound d core b ∧ Padded core text := by
  constructor
  · intro h
    refine ⟨trim text, ?_, padded_trim text⟩
    unfold readBound at h
    dsimp only at h
    split at h
    next hwild =>
      obtain rfl := Except.ok.inj h
      rw [hwild]
      exact .wildcard
    next =>
      split at h
      next hint =>
        split at h
        next n hn =>
          obtain rfl := Except.ok.inj h
          rcases isIntegerText_iff.1 hint with hdigits | ⟨digits, htext, hdigits⟩
          · rw [hdigits.readInt?, Option.bind_some, int64?_eq_some_iff] at hn
            exact .positive hdigits hn
          · rw [htext, hdigits.readInt?_minus, Option.bind_some, int64?_eq_some_iff] at hn
            rw [htext]
            exact .negative hdigits hn
        next => simp at h
      next => simp at h
  · intro h
    obtain ⟨core, h, hpad⟩ := h
    have htrim : trim text = core := by rw [trim_of_padded hpad, h.trim_eq hd]
    unfold readBound
    rw [htrim]
    cases h with
    | wildcard => exact if_pos rfl
    | positive hdigits hn =>
      have hne : core ≠ [d.wildcard] := by
        intro heq
        subst heq
        exact hd.ne_of_isDigit .wildcard (hdigits.isDigit _ List.mem_cons_self) rfl
      simp only [if_neg hne, isIntegerText_iff.2 (Or.inl hdigits), if_true, hdigits.readInt?,
        Option.bind_some, int64?_eq_some_iff.2 hn]
    | @negative digits _ hdigits hn =>
      have hne : '-' :: digits ≠ [d.wildcard] := by
        intro heq
        exact hdigits.ne_nil (List.cons.inj heq).2
      simp only [if_neg hne, isIntegerText_iff.2 (Or.inr ⟨digits, rfl, hdigits⟩), if_true,
        hdigits.readInt?_minus, Option.bind_some, int64?_eq_some_iff.2 hn]

/-! ### Indexes -/

theorem cutFirst?_eq_none_iff {c : Char} {text : List Char} :
    cutFirst? c text = none ↔ c ∉ text := by
  unfold cutFirst?
  split
  next h =>
    have hall := List.dropWhile_eq_nil_iff.1 h
    refine ⟨fun _ hc => ?_, fun _ => rfl⟩
    simpa using hall c hc
  next x after h =>
    refine ⟨fun h => by simp at h, fun hc => ?_⟩
    have hx : (x != c) = false := by
      have hhead := List.head_dropWhile_not (· != c) (l := text) (by simp [h])
      simpa [h] using hhead
    have hmem : x ∈ text.dropWhile (· != c) := h ▸ List.mem_cons_self
    have hxc : x = c := by simpa using hx
    exact absurd (hxc ▸ (List.dropWhile_suffix _).subset hmem) hc

theorem cutFirst?_eq_some_iff {c : Char} {text before after : List Char} :
    cutFirst? c text = some (before, after) ↔ text = before ++ c :: after ∧ c ∉ before := by
  unfold cutFirst?
  constructor
  · intro h
    split at h
    next => simp at h
    next x after' hdrop =>
      simp only [Option.some.injEq, Prod.mk.injEq] at h
      obtain ⟨rfl, rfl⟩ := h
      have hx : x = c := by
        have hhead := List.head_dropWhile_not (· != c) (l := text) (by simp [hdrop])
        simpa [hdrop] using hhead
      refine ⟨?_, fun hc => ?_⟩
      · rw [hx] at hdrop
        rw [← hdrop, List.takeWhile_append_dropWhile]
      · simpa using List.mem_takeWhile_imp hc
  · intro h
    obtain ⟨rfl, hc⟩ := h
    have hbefore : ∀ x ∈ before, (x != c) = true := fun x hx => by
      rw [bne_iff_ne]
      intro heq
      subst heq
      exact hc hx
    simp [List.dropWhile_append_of_pos hbefore, List.takeWhile_append_of_pos hbefore]

/-- What separates the bounds of a range cannot stand in a bound. -/
theorem SpellsBound.range_not_mem (hd : d.Legal) {core text : List Char} {b : Bound}
    (h : SpellsBound d core b) (hpad : Padded core text) : d.rangeSeparator ∉ text := by
  intro hmem
  rcases hpad.mem hmem with hmem | hblank
  · rcases h.mem hmem with heq | heq | hdigit
    · exact hd.bracketed .rangeSeparator (.role .wildcard) (by decide) heq
    · exact hd.bracketed .rangeSeparator .minusSign (by decide) heq
    · exact hd.ne_of_isDigit .rangeSeparator hdigit rfl
  · exact hd.ne_of_isBlank .rangeSeparator hblank rfl

/-- An index is read exactly from the texts that spell it. -/
theorem readIndex_eq_ok_iff (hd : d.Legal) {inside : List Char} {i : Index} :
    readIndex d inside = .ok i ↔ SpellsIndex d inside i := by
  unfold readIndex
  constructor
  · intro h
    split at h
    next =>
      cases hb : readBound d inside with
      | error e => simp [hb, Except.map] at h
      | ok b =>
        obtain ⟨core, hcore, hpad⟩ := (readBound_eq_ok_iff hd).1 hb
        rw [hb] at h
        obtain rfl := Except.ok.inj h
        exact .one hcore hpad
    next start stop hcut =>
      obtain ⟨rfl, -⟩ := cutFirst?_eq_some_iff.1 hcut
      split at h
      next => simp at h
      next =>
        cases hb : readBound d start with
        | error e => simp [hb, bind, Except.bind] at h
        | ok b =>
          cases hb' : readBound d stop with
          | error e => simp [hb, hb', bind, Except.bind] at h
          | ok b' =>
            obtain ⟨core, hcore, hpad⟩ := (readBound_eq_ok_iff hd).1 hb
            obtain ⟨core', hcore', hpad'⟩ := (readBound_eq_ok_iff hd).1 hb'
            rw [hb, hb'] at h
            obtain rfl := Except.ok.inj h
            exact .slice hcore hpad hcore' hpad'
  · intro h
    cases h with
    | one hcore hpad =>
      rw [cutFirst?_eq_none_iff.2 (hcore.range_not_mem hd hpad)]
      simp only [(readBound_eq_ok_iff hd).2 ⟨_, hcore, hpad⟩]
      rfl
    | slice hcore hpad hcore' hpad' =>
      rw [cutFirst?_eq_some_iff.2 ⟨rfl, hcore.range_not_mem hd hpad⟩]
      have hmany := hcore'.range_not_mem hd hpad'
      simp only [List.contains_eq_mem, hmany, decide_false, Bool.false_eq_true, if_false,
        (readBound_eq_ok_iff hd).2 ⟨_, hcore, hpad⟩, (readBound_eq_ok_iff hd).2 ⟨_, hcore', hpad'⟩]
      rfl

/-- The characters of an index, between its brackets. -/
theorem SpellsIndex.mem {inside : List Char} {i : Index} (h : SpellsIndex d inside i) {c : Char}
    (hc : c ∈ inside) : c = d.wildcard ∨ c = '-' ∨ c.isDigit = true ∨ c = d.rangeSeparator ∨
      isBlank c = true := by
  have hbound : ∀ {core text : List Char} {b : Bound}, SpellsBound d core b → Padded core text →
      c ∈ text → c = d.wildcard ∨ c = '-' ∨ c.isDigit = true ∨ c = d.rangeSeparator ∨
        isBlank c = true := by
    intro core text b hcore hpad hc
    rcases hpad.mem hc with hc | hblank
    · rcases hcore.mem hc with h | h | h
      · exact Or.inl h
      · exact Or.inr (Or.inl h)
      · exact Or.inr (Or.inr (Or.inl h))
    · exact Or.inr (Or.inr (Or.inr (Or.inr hblank)))
  cases h with
  | one hcore hpad => exact hbound hcore hpad hc
  | slice hcore hpad hcore' hpad' =>
    rcases List.mem_append.1 hc with hc | hc
    · exact hbound hcore hpad hc
    rcases List.mem_cons.1 hc with rfl | hc
    · exact Or.inr (Or.inr (Or.inr (Or.inl rfl)))
    · exact hbound hcore' hpad' hc

theorem SpellsIndex.ne_nil {inside : List Char} {i : Index} (h : SpellsIndex d inside i) :
    inside ≠ [] := by
  have hbound : ∀ {core text : List Char} {b : Bound}, SpellsBound d core b → Padded core text →
      text ≠ [] := by
    rintro core text b hcore ⟨before, after, -, -, rfl⟩ hnil
    have hcore' : core = [] := (List.append_eq_nil_iff.1 (List.append_eq_nil_iff.1 hnil).1).2
    cases hcore with
    | wildcard => cases hcore'
    | positive hdigits => exact hdigits.ne_nil hcore'
    | negative => cases hcore'
  cases h with
  | one hcore hpad => exact hbound hcore hpad
  | slice => exact List.append_ne_nil_of_right_ne_nil _ (List.cons_ne_nil _ _)

/-! ### Defaults -/

theorem cutLast?_eq_some_iff {c : Char} {text before after : List Char} :
    cutLast? c text = some (before, after) ↔ text = before ++ c :: after ∧ c ∉ after := by
  have hiff : cutLast? c text = some (before, after) ↔
      cutFirst? c text.reverse = some (after.reverse, before.reverse) := by
    unfold cutLast?
    rw [Option.map_eq_some_iff]
    constructor
    · intro h
      obtain ⟨⟨x, y⟩, h, heq⟩ := h
      obtain ⟨rfl, rfl⟩ := Prod.mk.inj heq
      rw [List.reverse_reverse, List.reverse_reverse]
      exact h
    · intro h
      exact ⟨_, h, by simp⟩
  rw [hiff, cutFirst?_eq_some_iff, List.mem_reverse, List.reverse_eq_iff]
  simp

/-- The names of types are words of letters. -/
theorem isAlphanum_of_mem_name (kind : DefaultKind) :
    ∀ c ∈ kind.name.toList, c.isAlphanum = true := by
  rw [← List.all_eq_true]
  cases kind <;> decide

theorem typeDelimiter_not_mem_name (hd : d.Legal) (kind : DefaultKind) :
    d.typeDelimiter ∉ kind.name.toList :=
  fun hmem => hd.ne_of_isAlphanum .typeDelimiter (isAlphanum_of_mem_name kind _ hmem) rfl

theorem trim_name (kind : DefaultKind) : trim kind.name.toList = kind.name.toList := by
  cases kind <;> decide

/-- A default is read exactly from the texts that spell it. -/
theorem readDefault_eq_ok_iff (hd : d.Legal) {fragment : String} {inside : List Char}
    {v : Default} : readDefault d fragment inside = .ok v ↔ SpellsDefault d inside v := by
  unfold readDefault
  constructor
  · intro h
    split at h
    next => simp at h
    next left right hcut =>
      obtain ⟨rfl, -⟩ := cutLast?_eq_some_iff.1 hcut
      dsimp only at h
      split at h
      next => simp at h
      next kind hkind =>
        split at h
        next => simp at h
        next value hvalue =>
          obtain rfl := Except.ok.inj h
          have hname : trim right = kind.name.toList := by
            rw [← DefaultKind.ofName?_eq_some_iff.1 hkind, String.toList_ofList]
          exact .mk (trim_trim left) (padded_trim left) (hname ▸ padded_trim right) hvalue
  · intro h
    cases h with
    | @mk source left right kind value htrim hleft hright hvalue =>
      have hnot : d.typeDelimiter ∉ right := by
        intro hmem
        rcases hright.mem hmem with hmem | hblank
        · exact typeDelimiter_not_mem_name hd kind hmem
        · exact hd.ne_of_isBlank .typeDelimiter hblank rfl
      have hname : String.ofList (trim right) = kind.name := by
        rw [trim_of_padded hright, trim_name, String.ofList_toList]
      have hsource : trim left = source := by rw [trim_of_padded hleft, htrim]
      simp only [cutLast?_eq_some_iff.2 ⟨rfl, hnot⟩, hname, hsource, DefaultKind.ofName?_name,
        hvalue]

end DocPath
