import DocPath.Path.Coercion
import DocPath.Proofs.Brackets

/-!
# DocPath.Proofs.Coercions

What the text of a default gives for each type. The numerals of integers and floats are given by
grammars (`SpellsInteger`, `SpellsFloat`), which the readers accept exactly. So a text is kept
instead of a number if and only if it is no numeral of the type (`coerce_eq_ok_iff`).
-/

namespace DocPath

open DocPath.Text

/-! ### Integers -/

/-- Texts of integers: digits, with a sign of either kind or none before them. -/
inductive SpellsInteger : List Char → Int → Prop
  | plain {digits : List Char} : Digits digits → SpellsInteger digits (Numeral.value 10 digits)
  | plus {digits : List Char} : Digits digits →
      SpellsInteger ('+' :: digits) (Numeral.value 10 digits)
  | minus {digits : List Char} : Digits digits →
      SpellsInteger ('-' :: digits) (-(Numeral.value 10 digits : Int))

theorem isDigit_of_isDigitIn_ten {c : Char} (h : Numeral.isDigitIn 10 c = true) :
    c.isDigit = true := by
  rw [Numeral.isDigitIn] at h
  split at h
  next n hn =>
    have hlt : n < 10 := of_decide_eq_true h
    rw [Numeral.digitValue] at hn
    split at hn
    next hdigit =>
      simp only [Bool.and_eq_true, decide_eq_true_eq] at hdigit
      simp only [Char.isDigit, Bool.and_eq_true, decide_eq_true_eq, ge_iff_le]
      exact hdigit
    next =>
      -- A letter counts ten or more.
      split at hn
      next =>
        obtain rfl := Option.some.inj hn
        omega
      next =>
        split at hn
        next =>
          obtain rfl := Option.some.inj hn
          omega
        next => cases hn
  next => cases h

theorem readNat?_eq_some_iff {text : List Char} {n : Nat} :
    Numeral.readNat? 10 text = some n ↔ Digits text ∧ Numeral.value 10 text = n := by
  constructor
  · intro h
    rw [Numeral.readNat?] at h
    split at h
    next hall =>
      rw [Bool.and_eq_true, Bool.not_eq_true', List.isEmpty_eq_false_iff, List.all_eq_true] at hall
      exact ⟨⟨hall.1, fun c hc => isDigit_of_isDigitIn_ten (hall.2 c hc)⟩, Option.some.inj h⟩
    next => cases h
  · intro h
    obtain ⟨hdigits, rfl⟩ := h
    exact hdigits.readNat?

/-- The reader of integers accepts exactly their texts. -/
theorem readInt?_eq_some_iff {text : List Char} {n : Int} :
    Numeral.readInt? 10 text = some n ↔ SpellsInteger text n := by
  have hdigits : ∀ {digits : List Char} {f : Int → Int},
      (do let m ← Numeral.readNat? 10 digits; pure (m : Int)).map f = some n →
        Digits digits ∧ f (Numeral.value 10 digits) = n := by
    intro digits f h
    cases hm : Numeral.readNat? 10 digits with
    | none =>
      rw [hm] at h
      cases h
    | some m =>
      rw [hm] at h
      obtain ⟨hdigits, rfl⟩ := readNat?_eq_some_iff.1 hm
      exact ⟨hdigits, Option.some.inj h⟩
  constructor
  · intro h
    rw [Numeral.readInt?.eq_def] at h
    split at h <;> obtain ⟨htext, rfl⟩ := hdigits h
    · exact .minus htext
    · exact .plus htext
    · exact .plain htext
  · intro h
    cases h with
    | plain h => exact h.readInt?
    | plus h => rw [Numeral.readInt?, h.readNat?]; rfl
    | minus h => exact h.readInt?_minus

/-! ### Floats -/

/-- Texts of a power of ten: none at all, or a letter and an integer. -/
inductive SpellsExponent : List Char → Int → Prop
  | nil : SpellsExponent [] 0
  | cons {letter : Char} {text : List Char} {e : Int} : letter = 'e' ∨ letter = 'E' →
      SpellsInteger text e → SpellsExponent (letter :: text) e

/-- Texts of numbers in decimal notation, as an integer and the power of ten that scales it. There
may be a point, with digits on one side of it at least. -/
inductive SpellsDecimal : List Char → Nat → Int → Prop
  | whole {digits exponent : List Char} {e : Int} : Digits digits → SpellsExponent exponent e →
      SpellsDecimal (digits ++ exponent) (Numeral.value 10 digits) e
  | point {whole fraction exponent : List Char} {e : Int} : Digits (whole ++ fraction) →
      SpellsExponent exponent e →
      SpellsDecimal (whole ++ '.' :: (fraction ++ exponent)) (Numeral.value 10 (whole ++ fraction))
        (e - fraction.length)

/-- Texts of floats without a sign. -/
inductive SpellsMagnitude (negative : Bool) : List Char → Binary64 → Prop
  | decimal {text : List Char} {digits : Nat} {e : Int} : SpellsDecimal text digits e →
      SpellsMagnitude negative text (.ofDecimal negative digits e)
  /-- The words are read in letters of either case. -/
  | infinity {text : List Char} :
      text.map Char.toLower = "inf".toList ∨ text.map Char.toLower = "infinity".toList →
      SpellsMagnitude negative text (.infinity negative)
  | nan {text : List Char} : text.map Char.toLower = "nan".toList →
      SpellsMagnitude negative text (.nan negative)

/-- Texts of floats: a sign of either kind or none, and a magnitude. -/
inductive SpellsFloat : List Char → Binary64 → Prop
  | plain {text : List Char} {x : Binary64} : SpellsMagnitude false text x → SpellsFloat text x
  | plus {text : List Char} {x : Binary64} : SpellsMagnitude false text x →
      SpellsFloat ('+' :: text) x
  | minus {text : List Char} {x : Binary64} : SpellsMagnitude true text x →
      SpellsFloat ('-' :: text) x

/-- An exponent does not begin with a digit or a point. -/
theorem SpellsExponent.not_digit {text : List Char} {e : Int} (h : SpellsExponent text e) :
    ∀ c ∈ text.head?, c.isDigit = false ∧ c ≠ '.' := by
  cases h with
  | nil => nofun
  | cons hletter =>
    intro c hc
    obtain rfl := Option.some.inj hc
    rcases hletter with rfl | rfl <;> decide

/-- Reads the text of a power of ten. -/
def readExponent? : List Char → Option Int
  | [] => some 0
  | c :: cs => if c == 'e' || c == 'E' then Numeral.readInt? 10 cs else none

theorem readExponent?_eq_some_iff {text : List Char} {e : Int} :
    readExponent? text = some e ↔ SpellsExponent text e := by
  cases text with
  | nil =>
    constructor
    · intro h
      obtain rfl := Option.some.inj h
      exact .nil
    · intro h
      cases h
      rfl
  | cons c cs =>
    rw [readExponent?]
    constructor
    · intro h
      split at h
      next hletter => exact .cons (by simpa using hletter) (readInt?_eq_some_iff.1 h)
      next => cases h
    · intro h
      cases h with
      | cons hletter h => rw [if_pos (by simpa using hletter), readInt?_eq_some_iff.2 h]

theorem takeWhile_isDigit {digits rest : List Char} (hdigits : ∀ c ∈ digits, c.isDigit = true)
    (hrest : ∀ c ∈ rest.head?, c.isDigit = false) :
    (digits ++ rest).takeWhile Char.isDigit = digits ∧
      (digits ++ rest).dropWhile Char.isDigit = rest := by
  rw [List.takeWhile_append_of_pos hdigits, List.dropWhile_append_of_pos hdigits]
  cases rest with
  | nil => simp
  | cons c cs =>
    have hc := hrest c rfl
    simp [hc]

/-- Every text is digits and what does not go on with one. -/
theorem exists_digits_append (text : List Char) : ∃ digits rest : List Char,
    (∀ c ∈ digits, c.isDigit = true) ∧ (∀ c ∈ rest.head?, c.isDigit = false) ∧
      text = digits ++ rest := by
  refine ⟨text.takeWhile Char.isDigit, text.dropWhile Char.isDigit,
    fun c hc => List.mem_takeWhile_imp hc, fun c hc => ?_, List.takeWhile_append_dropWhile.symm⟩
  have hnot := List.head?_dropWhile_not Char.isDigit text
  rw [Option.mem_def.1 hc] at hnot
  exact hnot

/-- A numeral without a point. -/
theorem readUnsigned?_whole {digits rest : List Char} (hdigits : ∀ c ∈ digits, c.isDigit = true)
    (hrest : ∀ c ∈ rest.head?, c.isDigit = false ∧ c ≠ '.') :
    Binary64.readUnsigned? (digits ++ rest) =
      if digits = [] then none
      else (readExponent? rest).map fun e => (Numeral.value 10 digits, e) := by
  obtain ⟨htake, hdrop⟩ := takeWhile_isDigit hdigits fun c hc => (hrest c hc).1
  unfold Binary64.readUnsigned?
  rw [htake, hdrop]
  cases rest with
  | nil => simp [readExponent?]
  | cons c cs =>
    have hpoint : c ≠ '.' := (hrest c rfl).2
    by_cases hletter : c = 'e' ∨ c = 'E' <;> simp [hpoint, readExponent?, hletter]

/-- A numeral with a point. -/
theorem readUnsigned?_point {whole fraction rest : List Char}
    (hwhole : ∀ c ∈ whole, c.isDigit = true) (hfraction : ∀ c ∈ fraction, c.isDigit = true)
    (hrest : ∀ c ∈ rest.head?, c.isDigit = false) :
    Binary64.readUnsigned? (whole ++ '.' :: (fraction ++ rest)) =
      if whole ++ fraction = [] then none
      else (readExponent? rest).map fun e =>
        (Numeral.value 10 (whole ++ fraction), e - (fraction.length : Int)) := by
  have hpoint : ∀ c ∈ ('.' :: (fraction ++ rest)).head?, c.isDigit = false := by simp
  obtain ⟨htake, hdrop⟩ := takeWhile_isDigit hwhole hpoint
  obtain ⟨htake', hdrop'⟩ := takeWhile_isDigit hfraction hrest
  unfold Binary64.readUnsigned?
  rw [htake, hdrop]
  simp only [htake', hdrop']
  cases rest with
  | nil => simp [readExponent?]
  | cons c cs => by_cases hletter : c = 'e' ∨ c = 'E' <;> simp [readExponent?, hletter]

/-- The reader of numerals without a sign accepts exactly their texts. -/
theorem readUnsigned?_eq_some_iff {text : List Char} {n : Nat} {e : Int} :
    Binary64.readUnsigned? text = some (n, e) ↔ SpellsDecimal text n e := by
  constructor
  · intro h
    obtain ⟨whole, rest, hwhole, hrest, rfl⟩ := exists_digits_append text
    by_cases hpoint : rest.head? = some '.'
    · obtain ⟨cs, rfl⟩ := List.head?_eq_some_iff.1 hpoint
      obtain ⟨fraction, exponent, hfraction, hexponent, rfl⟩ := exists_digits_append cs
      rw [readUnsigned?_point hwhole hfraction hexponent] at h
      split at h
      next => cases h
      next hne =>
        obtain ⟨e', he', heq⟩ := Option.map_eq_some_iff.1 h
        obtain ⟨rfl, rfl⟩ := Prod.mk.inj heq
        exact .point ⟨hne, List.forall_mem_append.2 ⟨hwhole, hfraction⟩⟩
          (readExponent?_eq_some_iff.1 he')
    · have hrest' : ∀ c ∈ rest.head?, c.isDigit = false ∧ c ≠ '.' := by
        refine fun c hc => ⟨hrest c hc, ?_⟩
        rintro rfl
        exact hpoint hc
      rw [readUnsigned?_whole hwhole hrest'] at h
      split at h
      next => cases h
      next hne =>
        obtain ⟨e', he', heq⟩ := Option.map_eq_some_iff.1 h
        obtain ⟨rfl, rfl⟩ := Prod.mk.inj heq
        exact .whole ⟨hne, hwhole⟩ (readExponent?_eq_some_iff.1 he')
  · intro h
    cases h with
    | whole hdigits hexponent =>
      rw [readUnsigned?_whole hdigits.isDigit hexponent.not_digit, if_neg hdigits.ne_nil,
        readExponent?_eq_some_iff.2 hexponent]
      rfl
    | point hdigits hexponent =>
      obtain ⟨hwhole, hfraction⟩ := List.forall_mem_append.1 hdigits.isDigit
      rw [readUnsigned?_point hwhole hfraction fun c hc => (hexponent.not_digit c hc).1,
        if_neg hdigits.ne_nil, readExponent?_eq_some_iff.2 hexponent]
      rfl

/-- A numeral begins with a digit or a point, which have no other case. -/
theorem SpellsDecimal.head {text : List Char} {n : Nat} {e : Int} (h : SpellsDecimal text n e) :
    ∃ c rest, text = c :: rest ∧ (c.isDigit = true ∨ c = '.') := by
  cases h with
  | @whole digits exponent e hdigits _ =>
    cases digits with
    | nil => exact absurd rfl hdigits.ne_nil
    | cons c digits =>
      exact ⟨c, digits ++ exponent, rfl, .inl (hdigits.isDigit c List.mem_cons_self)⟩
  | @point whole fraction exponent e hdigits _ =>
    cases whole with
    | nil => exact ⟨'.', fraction ++ exponent, rfl, .inr rfl⟩
    | cons c whole => exact ⟨c, _, rfl, .inl (hdigits.isDigit c List.mem_cons_self)⟩

/-- A numeral is none of the words. -/
theorem SpellsDecimal.map_toLower_ne {text word : List Char} {n : Nat} {e : Int}
    (h : SpellsDecimal text n e) (letter : Char) (hdigit : letter.isDigit = false)
    (hpoint : letter ≠ '.') (hword : word.head? = some letter) :
    text.map Char.toLower ≠ word := by
  obtain ⟨c, rest, rfl, hc⟩ := h.head
  have hlower : c.toLower = c := by
    rcases hc with hc | rfl
    · simp only [Char.isDigit, Bool.and_eq_true, decide_eq_true_eq, ge_iff_le] at hc
      exact dif_neg fun hcapital => absurd (UInt32.le_trans hcapital.1 hc.2) (by decide)
    · rfl
  rintro rfl
  rw [List.map_cons, List.head?_cons, hlower, Option.some.injEq] at hword
  subst hword
  rcases hc with hc | hc
  · rw [hdigit] at hc
    cases hc
  · exact hpoint hc

theorem readMagnitude?_eq_some_iff {negative : Bool} {text : List Char} {x : Binary64} :
    Binary64.readMagnitude? negative text = some x ↔ SpellsMagnitude negative text x := by
  have hword : ∀ word : String, String.ofList (text.map Char.toLower) = word ↔
      text.map Char.toLower = word.toList := by
    intro word
    rw [← String.toList_inj, String.toList_ofList]
  rw [Binary64.readMagnitude?]
  cases hdecimal : Binary64.readUnsigned? text with
  | some pair =>
    obtain ⟨n, e⟩ := pair
    have hspells := readUnsigned?_eq_some_iff.1 hdecimal
    constructor
    · intro h
      obtain rfl := Option.some.inj h
      exact .decimal hspells
    · intro h
      cases h with
      | decimal h =>
        have hsame := hdecimal.symm.trans (readUnsigned?_eq_some_iff.2 h)
        obtain ⟨rfl, rfl⟩ := Prod.mk.inj (Option.some.inj hsame)
        rfl
      | infinity h =>
        rcases h with h | h <;>
          exact absurd h (hspells.map_toLower_ne 'i' rfl (by decide) rfl)
      | nan h => exact absurd h (hspells.map_toLower_ne 'n' rfl (by decide) rfl)
  | none =>
    simp only [hword]
    constructor
    · intro h
      split at h
      next hinfinity =>
        obtain rfl := Option.some.inj h
        exact .infinity hinfinity
      next =>
        split at h
        next hnan =>
          obtain rfl := Option.some.inj h
          exact .nan hnan
        next => cases h
    · intro h
      cases h with
      | decimal h =>
        rw [readUnsigned?_eq_some_iff.2 h] at hdecimal
        cases hdecimal
      | infinity h => rw [if_pos h]
      | nan h => rw [if_neg (by rw [h]; decide), if_pos h]

/-- A magnitude does not begin with a sign. -/
theorem SpellsMagnitude.ne_sign {negative : Bool} {sign : Char} {text : List Char} {x : Binary64}
    (h : SpellsMagnitude negative (sign :: text) x) : sign ≠ '-' ∧ sign ≠ '+' := by
  cases h with
  | decimal h =>
    obtain ⟨c, rest, heq, hc⟩ := h.head
    obtain ⟨rfl, -⟩ := List.cons.inj heq
    constructor <;> rintro rfl <;> simp at hc
  | infinity h => constructor <;> rintro rfl <;> simp at h
  | nan h => constructor <;> rintro rfl <;> simp at h

/-- The reader of floats accepts exactly their texts. -/
theorem read?_eq_some_iff {text : List Char} {x : Binary64} :
    Binary64.read? text = some x ↔ SpellsFloat text x := by
  constructor
  · intro h
    rw [Binary64.read?.eq_def] at h
    split at h
    · exact .minus (readMagnitude?_eq_some_iff.1 h)
    · exact .plus (readMagnitude?_eq_some_iff.1 h)
    · exact .plain (readMagnitude?_eq_some_iff.1 h)
  · intro h
    cases h with
    | plus h => exact readMagnitude?_eq_some_iff.2 h
    | minus h => exact readMagnitude?_eq_some_iff.2 h
    | plain h =>
      -- A magnitude is not mistaken for a sign with something after it.
      rw [Binary64.read?.eq_def]
      split
      · exact absurd rfl h.ne_sign.1
      · exact absurd rfl h.ne_sign.2
      · exact readMagnitude?_eq_some_iff.2 h

/-! ### Defaults -/

/-- The values that a default of a type has for a text, without the quotes around it. A text that is
no number of its type is kept as it is. -/
inductive DefaultKind.Gives : DefaultKind → List Char → Value → Prop
  | int {text : List Char} {n : Int64} : SpellsInteger text n.toInt → Gives .int text (.ofInt64 n)
  | intText {text : List Char} : (∀ n : Int64, ¬ SpellsInteger text n.toInt) →
      Gives .int text (.string (.ofList text))
  | float {text : List Char} {x : Binary64} : SpellsFloat text x → Gives .float text (.ofFloat x)
  | floatText {text : List Char} : (∀ x, ¬ SpellsFloat text x) →
      Gives .float text (.string (.ofList text))
  | str (text : List Char) : Gives .str text (.string (.ofList text))
  | bool (text : List Char) : Gives .bool text (.bool (saysTrue text))
  | list {text : List Char} {items : List Value} : Value.ofYaml? text = some (.sequence items) →
      Gives .list text (.sequence items)
  | dict {text : List Char} {entries : List (String × Value)} :
      Value.ofYaml? text = some (.mapping entries) → Gives .dict text (.mapping entries)

theorem literal_eq_ok_iff {wanted : Value → Bool} {text : List Char} {v : Value} :
    literal wanted text = .ok v ↔ Value.ofYaml? text = some v ∧ wanted v = true := by
  rw [literal]
  cases Value.ofYaml? text with
  | none => exact ⟨nofun, nofun⟩
  | some w =>
    show (if wanted w then Except.ok w else .error _) = .ok v ↔ _
    rw [Option.some.injEq]
    split
    next hw =>
      rw [Except.ok.injEq]
      exact ⟨fun h => ⟨h, h ▸ hw⟩, fun h => h.1⟩
    next hw =>
      refine ⟨nofun, fun h => ?_⟩
      obtain ⟨rfl, hv⟩ := h
      exact absurd hv hw

/-- A word is read from a text exactly if the text is a numeral of its value. -/
theorem readWord_eq_some_iff {text : List Char} {n : Int64} :
    (Numeral.readInt? 10 text).bind Numeral.int64? = some n ↔ SpellsInteger text n.toInt := by
  simp only [Option.bind_eq_some_iff, readInt?_eq_some_iff, int64?_eq_some_iff, exists_eq_right']

/-- What the source of a default is read as. -/
theorem coerce_eq_ok_iff {kind : DefaultKind} {source : List Char} {v : Value} :
    kind.coerce source = .ok v ↔ kind.Gives (unquote source) v := by
  rw [DefaultKind.coerce]
  constructor
  · intro h
    cases kind with
    | int =>
      obtain rfl := Except.ok.inj h
      split
      next n hn => exact .int (readWord_eq_some_iff.1 hn)
      next hnone =>
        refine .intText fun n hn => ?_
        rw [readWord_eq_some_iff.2 hn] at hnone
        cases hnone
    | float =>
      obtain rfl := Except.ok.inj h
      split
      next x hx => exact .float (read?_eq_some_iff.1 hx)
      next hnone =>
        refine .floatText fun x hx => ?_
        rw [read?_eq_some_iff.2 hx] at hnone
        cases hnone
    | str =>
      obtain rfl := Except.ok.inj h
      exact .str _
    | bool =>
      obtain rfl := Except.ok.inj h
      exact .bool _
    | list =>
      obtain ⟨hv, hkind⟩ := literal_eq_ok_iff.1 h
      cases v with
      | sequence items => exact .list hv
      | _ => cases hkind
    | dict =>
      obtain ⟨hv, hkind⟩ := literal_eq_ok_iff.1 h
      cases v with
      | mapping entries => exact .dict hv
      | _ => cases hkind
  · intro h
    cases h with
    | int h => rw [DefaultKind.value, readWord_eq_some_iff.2 h]
    | intText h =>
      have hnone : (Numeral.readInt? 10 (unquote source)).bind Numeral.int64? = none :=
        Option.eq_none_iff_forall_ne_some.2 fun n hn => h n (readWord_eq_some_iff.1 hn)
      rw [DefaultKind.value, hnone]
    | float h => rw [DefaultKind.value, read?_eq_some_iff.2 h]
    | floatText h =>
      have hnone : Binary64.read? (unquote source) = none :=
        Option.eq_none_iff_forall_ne_some.2 fun x hx => h x (read?_eq_some_iff.1 hx)
      rw [DefaultKind.value, hnone]
    | str => rfl
    | bool => rfl
    | list h => exact literal_eq_ok_iff.2 ⟨h, rfl⟩
    | dict h => exact literal_eq_ok_iff.2 ⟨h, rfl⟩

/-- No default is null. -/
theorem DefaultKind.Gives.ne_null {kind : DefaultKind} {text : List Char} {v : Value}
    (h : kind.Gives text v) : v ≠ .null := by
  cases h <;> nofun

end DocPath
