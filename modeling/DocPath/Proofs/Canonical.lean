import DocPath.Proofs.Brackets
import DocPath.Path.Render

/-!
# DocPath.Proofs.Canonical

The text written for a step is one of its spellings, provided the step has any
(`SpellsStep.render`). What is written leaves out blanks and leading zeros; neither takes a closing
bracket out of quotations nor puts a new one in.
-/

namespace DocPath

open DocPath.Text

variable {d : Delimiters}

/-! ### Numerals -/

theorem digit_facts {n : Nat} (h : n < 10) :
    (Numeral.digit n).isDigit = true ∧ Numeral.digitValue (Numeral.digit n) = some n := by
  have hall : ∀ n : Fin 10, (Numeral.digit n).isDigit = true ∧
      Numeral.digitValue (Numeral.digit n) = some n.val := by decide
  exact hall ⟨n, h⟩

theorem digits_ofNat (n : Nat) : Digits (Numeral.ofNat n) := by
  induction n using Nat.strong_induction_on with
  | _ n ih =>
    rw [Numeral.ofNat]
    split
    next h =>
      refine ⟨List.cons_ne_nil _ _, fun c hc => ?_⟩
      rw [List.mem_singleton.1 hc]
      exact (digit_facts h).1
    next h =>
      have hrest := ih (n / 10) (by omega)
      refine ⟨List.append_ne_nil_of_left_ne_nil hrest.ne_nil _, fun c hc => ?_⟩
      rcases List.mem_append.1 hc with hc | hc
      · exact hrest.isDigit c hc
      · rw [List.mem_singleton.1 hc]
        exact (digit_facts (Nat.mod_lt n (by decide))).1

/-- A numeral denotes the number that it is written for. -/
theorem value_ofNat (n : Nat) : Numeral.value 10 (Numeral.ofNat n) = n := by
  induction n using Nat.strong_induction_on with
  | _ n ih =>
    rw [Numeral.ofNat]
    split
    next h =>
      rw [Numeral.value, List.foldl_cons, List.foldl_nil, (digit_facts h).2]
      simp
    next h =>
      have hrest := ih (n / 10) (by omega)
      rw [Numeral.value] at hrest
      rw [Numeral.value, List.foldl_append, hrest, List.foldl_cons, List.foldl_nil,
        (digit_facts (Nat.mod_lt n (by decide))).2, Option.getD_some]
      omega

/-! ### Indexes -/

/-- Every bound is spelled by the text written for it. -/
theorem spellsBound_render (b : Bound) : SpellsBound d (b.render d) b := by
  cases b with
  | wildcard => exact .wildcard
  | «at» n =>
    rw [Bound.render]
    cases hn : n.toInt with
    | ofNat m =>
      refine .positive (digits_ofNat m) ?_
      rw [hn]
      exact (congrArg Int.ofNat (value_ofNat m)).symm
    | negSucc m =>
      refine .negative (digits_ofNat (m + 1)) ?_
      rw [hn, value_ofNat]
      exact Int.negSucc_eq m

/-- Apart from digits, what is written for a bound stands in every spelling of it. -/
theorem SpellsBound.mem_of_mem_render {text : List Char} {b : Bound} (h : SpellsBound d text b)
    {c : Char} (hc : c ∈ b.render d) : c.isDigit = true ∨ c ∈ text := by
  cases h with
  | wildcard => exact Or.inr hc
  | @positive _ n _ hvalue =>
    have hofNat : n.toInt = .ofNat (Numeral.value 10 text) := hvalue
    rw [Bound.render, hofNat] at hc
    exact Or.inl ((digits_ofNat _).isDigit c hc)
  | @negative digits n _ hvalue =>
    rw [Bound.render] at hc
    cases hn : n.toInt with
    | ofNat m =>
      rw [hn] at hc
      exact Or.inl ((digits_ofNat m).isDigit c hc)
    | negSucc m =>
      rw [hn] at hc
      rcases List.mem_cons.1 hc with rfl | hc
      · exact Or.inr List.mem_cons_self
      · exact Or.inl ((digits_ofNat (m + 1)).isDigit c hc)

theorem SpellsIndex.render (hd : d.Legal) {inside : List Char} {i : Index}
    (h : SpellsIndex d inside i) (hclose : d.indexClose ∉ inside) :
    SpellsStep d (i.render d) (.index i) := by
  have hbound : ∀ {core text : List Char} {b : Bound}, SpellsBound d core b → Padded core text →
      d.indexClose ∉ text → d.indexClose ∉ b.render d := by
    rintro core text b hcore ⟨before, after, -, -, rfl⟩ hnot hmem
    rcases hcore.mem_of_mem_render hmem with hdigit | hcore
    · exact hd.ne_of_isDigit .indexClose hdigit rfl
    · exact hnot (List.mem_append_left _ (List.mem_append_right _ hcore))
  cases h with
  | @one core inside b hcore hpad =>
    have hspells : SpellsIndex d (b.render d) (.one b) :=
      .one (spellsBound_render b) (padded_self _)
    have hrender : (Index.one b).render d = d.indexOpen :: b.render d ++ [d.indexClose] := by
      simp [Index.render, Index.one]
    rw [hrender]
    exact .index hspells (hbound hcore hpad hclose)
  | @slice core core' start stop b b' hcore hpad hcore' hpad' =>
    have hspells : SpellsIndex d (b.render d ++ d.rangeSeparator :: b'.render d) (.slice b b') :=
      .slice (spellsBound_render b) (padded_self _) (spellsBound_render b') (padded_self _)
    have hrender : (Index.slice b b').render d =
        d.indexOpen :: (b.render d ++ d.rangeSeparator :: b'.render d) ++ [d.indexClose] := by
      simp [Index.render, Index.slice]
    rw [List.mem_append, List.mem_cons, not_or, not_or] at hclose
    rw [hrender]
    refine .index hspells ?_
    rw [List.mem_append, List.mem_cons, not_or, not_or]
    exact ⟨hbound hcore hpad hclose.1, hclose.2.1, hbound hcore' hpad' hclose.2.2⟩

/-! ### Defaults -/

/-- A class of characters without the quotation marks. -/
theorem isQuote_of_class {p : Char → Bool} (hp : p '\'' = false ∧ p '"' = false) {c : Char}
    (h : p c = true) : isQuote c = false := by
  rw [← Bool.not_eq_true, isQuote, Bool.or_eq_true, beq_iff_eq, beq_iff_eq]
  rintro (rfl | rfl)
  · rw [hp.1] at h
    cases h
  · rw [hp.2] at h
    cases h

theorem isQuote_of_isBlank {c : Char} (h : isBlank c = true) : isQuote c = false :=
  isQuote_of_class (by decide) h

/-- A character that is no quotation mark can be dropped from a quoted text. -/
theorem Quoted.of_cons {close : Char} {quote : Option Char} {text : List Char}
    (h : Quoted close quote text) (hquote : ∀ q ∈ quote, isQuote q = true) {c : Char}
    (hc : isQuote c = false) {a b : List Char} (htext : text = a ++ c :: b) :
    Quoted close quote (a ++ b) := by
  induction h generalizing a with
  | nil => simp at htext
  | @plain x text hx hclose htail ih =>
    cases a with
    | nil =>
      obtain ⟨-, rfl⟩ := List.cons.inj htext
      exact htail
    | cons y a =>
      obtain ⟨rfl, hrest⟩ := List.cons.inj htext
      exact .plain hx hclose (ih hquote hrest)
  | @opening x text hx htail ih =>
    cases a with
    | nil =>
      obtain ⟨rfl, -⟩ := List.cons.inj htext
      rw [hx] at hc
      simp at hc
    | cons y a =>
      obtain ⟨rfl, hrest⟩ := List.cons.inj htext
      exact .opening hx (ih (by simpa using hx) hrest)
  | @inner q x text hx htail ih =>
    cases a with
    | nil =>
      obtain ⟨-, rfl⟩ := List.cons.inj htext
      exact htail
    | cons y a =>
      obtain ⟨rfl, hrest⟩ := List.cons.inj htext
      exact .inner hx (ih hquote hrest)
  | @closing q text htail ih =>
    cases a with
    | nil =>
      obtain ⟨rfl, -⟩ := List.cons.inj htext
      rw [hquote _ rfl] at hc
      simp at hc
    | cons y a =>
      obtain ⟨rfl, hrest⟩ := List.cons.inj htext
      exact .closing (ih nofun hrest)

theorem Quoted.of_blanks {close : Char} {blanks a b : List Char} (hb : Blank blanks)
    (h : Quoted close none (a ++ blanks ++ b)) : Quoted close none (a ++ b) := by
  induction blanks with
  | nil =>
    rw [List.append_nil] at h
    exact h
  | cons c blanks ih =>
    have hc : isQuote c = false := isQuote_of_isBlank (hb c List.mem_cons_self)
    refine ih (fun x hx => hb x (List.mem_cons_of_mem c hx)) ?_
    rw [List.append_assoc]
    exact h.of_cons nofun hc (by simp)

theorem SpellsDefault.render {inside : List Char} {v : Default} (h : SpellsDefault d inside v)
    (hquoted : Quoted d.defaultClose none inside) : SpellsStep d (v.render d) (.default v) := by
  cases h with
  | @mk source left right kind value htrim hleft hright hvalue =>
    have hspells : SpellsDefault d (source ++ d.typeDelimiter :: kind.name.toList)
        ⟨value, kind, .ofList source⟩ :=
      .mk htrim (padded_self source) (padded_self _) hvalue
    have hrender : Default.render d ⟨value, kind, .ofList source⟩ = d.defaultOpen ::
        (source ++ d.typeDelimiter :: kind.name.toList) ++ [d.defaultClose] := by
      simp [Default.render]
    rw [hrender]
    refine .default hspells ?_
    obtain ⟨b₁, b₂, hb₁, hb₂, rfl⟩ := hleft
    obtain ⟨b₃, b₄, hb₃, hb₄, rfl⟩ := hright
    have h₁ := Quoted.of_blanks (a := []) (b := source ++ b₂ ++
      d.typeDelimiter :: (b₃ ++ kind.name.toList ++ b₄)) hb₁ (by simpa using hquoted)
    have h₂ := Quoted.of_blanks (a := source)
      (b := d.typeDelimiter :: (b₃ ++ kind.name.toList ++ b₄)) hb₂ (by simpa using h₁)
    have h₃ := Quoted.of_blanks (a := source ++ [d.typeDelimiter])
      (b := kind.name.toList ++ b₄) hb₃ (by simpa using h₂)
    have h₄ := Quoted.of_blanks (a := source ++ d.typeDelimiter :: kind.name.toList)
      (b := []) hb₄ (by simpa using h₃)
    rw [List.append_nil] at h₄
    exact h₄

/-! ### Steps -/

/-- A step that is spelled at all is spelled by the text written for it. -/
theorem SpellsStep.render (hd : d.Legal) {token : List Char} {s : Step}
    (h : SpellsStep d token s) : SpellsStep d (s.render d d.continuation) s := by
  cases h with
  | capture => exact .capture
  | index hindex hclose => exact hindex.render hd hclose
  | default hdefault hquoted => exact hdefault.render hquoted
  | anyEntry => exact .anyEntry (padded_self _)
  | divider => exact .divider
  | key hname =>
    rw [Step.render, String.toList_ofList]
    exact .key hname

end DocPath
