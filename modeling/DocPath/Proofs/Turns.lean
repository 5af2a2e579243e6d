import DocPath.Proofs.Brackets

/-!
# DocPath.Proofs.Turns

One turn of the reader against one token of the grammar. A turn reads a step from the token that
spells it, and leaves what follows the token (`turn_of_spellsStep`); conversely what a turn reads is
a token (`spellsStep_of_turn`), provided the text is one segment. A turn finds an alternation
exactly where none of the steps that may lead is in front of it (`turn_alternation_iff`).

Both scans stay in step because every token is passed by the split into segments and by the split
into alternatives (`SpellsStep.passes`).
-/

namespace DocPath

open DocPath.Text

variable {d : Delimiters}

/-! ### The separators of segments and alternatives -/

/-- The two roles at which texts are split. -/
def Role.splits (r : Role) : Prop := r = .segmentDivider ∨ r = .alternation

theorem Role.splits.mem {r : Role} (h : r.splits) : r ∈ Role.structural := by
  rcases h with rfl | rfl <;> decide

/-- A separator differs from every other structural delimiter. -/
theorem Delimiters.Legal.splits_ne (hd : d.Legal) {r s : Role} (hr : r.splits)
    (hs : s ∈ Role.structural ∧ ¬ s.splits) : d.char s ≠ d.char r := by
  refine hd.ne ⟨hs.1, hr.mem, ?_⟩
  intro heq
  subst heq
  exact hs.2 hr

theorem Role.not_splits {r : Role} (h : r ≠ .segmentDivider ∧ r ≠ .alternation) : ¬ r.splits := by
  rintro (rfl | rfl)
  · exact h.1 rfl
  · exact h.2 rfl

theorem Delimiters.Legal.separates (hd : d.Legal) {r : Role} (hr : r.splits) :
    Separates d (d.char r) where
  ne_defaultOpen := (hd.splits_ne (s := .defaultOpen) hr
    ⟨by decide, Role.not_splits (by decide)⟩).symm
  ne_indexOpen := (hd.splits_ne (s := .indexOpen) hr ⟨by decide, Role.not_splits (by decide)⟩).symm
  ne_indexClose := (hd.splits_ne (s := .indexClose) hr
    ⟨by decide, Role.not_splits (by decide)⟩).symm

/-- A structural delimiter that is neither an opening bracket nor a separator is passed. -/
theorem Delimiters.Legal.passable (hd : d.Legal) {r s : Role} (hr : r.splits)
    (hs : s ∈ Role.structural ∧ s ≠ .segmentDivider ∧ s ≠ .alternation ∧ s ≠ .defaultOpen ∧
      s ≠ .indexOpen) :
    d.char s ≠ d.defaultOpen ∧ d.char s ≠ d.indexOpen ∧ d.char s ≠ d.char r :=
  ⟨hd.ne (s := .defaultOpen) ⟨hs.1, by decide, hs.2.2.2.1⟩,
    hd.ne (s := .indexOpen) ⟨hs.1, by decide, hs.2.2.2.2⟩,
    hd.splits_ne hr ⟨hs.1, Role.not_splits ⟨hs.2.1, hs.2.2.1⟩⟩⟩

theorem Delimiters.Legal.passable_blank (hd : d.Legal) (r : Role) {c : Char}
    (hc : isBlank c = true) : c ≠ d.defaultOpen ∧ c ≠ d.indexOpen ∧ c ≠ d.char r :=
  ⟨(hd.ne_of_isBlank .defaultOpen hc).symm, (hd.ne_of_isBlank .indexOpen hc).symm,
    (hd.ne_of_isBlank r hc).symm⟩

theorem passes_blank (hd : d.Legal) (r : Role) {text : List Char} (h : Blank text) :
    Passes d (d.char r) text :=
  Passes.of_forall fun c hc => hd.passable_blank r (h c hc)

/-- The inside of an index holds no bracket. -/
theorem SpellsIndex.not_bracket (hd : d.Separable) {inside : List Char} {i : Index}
    (h : SpellsIndex d inside i) (hclose : d.indexClose ∉ inside) :
    ∀ c ∈ inside, c ≠ d.defaultOpen ∧ c ≠ d.indexOpen ∧ c ≠ d.indexClose := by
  intro c hc
  have hne : c ≠ d.indexClose := fun heq => hclose (heq ▸ hc)
  rcases h.mem hc with rfl | rfl | hdigit | rfl | hblank
  · exact ⟨hd.ne (r := .wildcard) (s := .defaultOpen) (by decide),
      hd.ne (r := .wildcard) (s := .indexOpen) (by decide), hne⟩
  · exact ⟨hd.defaultOpen_ne_minus.symm, hd.indexOpen_ne_minus.symm, hne⟩
  · exact ⟨(hd.ne_of_isDigit .defaultOpen hdigit).symm, (hd.ne_of_isDigit .indexOpen hdigit).symm,
      hne⟩
  · exact ⟨hd.defaultOpen_ne_range.symm, hd.indexOpen_ne_range.symm, hne⟩
  · exact ⟨(hd.ne_of_isBlank .defaultOpen hblank).symm, (hd.ne_of_isBlank .indexOpen hblank).symm,
      hne⟩

theorem mem_keyStops_of_splits {r : Role} (hr : r.splits) : d.char r ∈ d.keyStops := by
  rcases hr with rfl | rfl <;> simp [Delimiters.char, Delimiters.keyStops]

theorem KeyName.ne {name : List Char} (h : KeyName d name) {c x : Char} (hc : c ∈ name)
    (hx : x ∈ d.keyStops) : c ≠ x := by
  intro heq
  subst heq
  exact h.not_stop c hc hx

/-- Every token is passed by both splits. -/
theorem SpellsStep.passes (hd : d.Separable) {r : Role} (hr : r.splits) {token : List Char}
    {s : Step} (h : SpellsStep d token s) : Passes d (d.char r) token := by
  cases h with
  | capture =>
    refine Passes.of_forall fun c hc => ?_
    rw [List.mem_singleton.1 hc]
    exact hd.passable (s := .contextMarker) hr (by decide)
  | index hindex hclose =>
    exact Passes.index (hd.ne (r := .indexOpen) (s := .defaultOpen) (by decide))
      ⟨hd.ne (r := .indexClose) (s := .defaultOpen) (by decide),
        hd.ne (r := .indexClose) (s := .indexOpen) (by decide)⟩
      (hindex.not_bracket hd hclose)
  | default _ hquoted => exact Passes.default hquoted
  | anyEntry hpad =>
    refine Passes.of_forall fun c hc => ?_
    rcases List.mem_append.1 hc with hc | hc
    · rcases List.mem_cons.1 hc with rfl | hc
      · exact hd.passable (s := .anyEntryOpen) hr (by decide)
      rcases hpad.mem hc with hc | hblank
      · rw [List.mem_singleton.1 hc]
        exact hd.passable (s := .wildcard) hr (by decide)
      · exact hd.passable_blank r hblank
    · rw [List.mem_singleton.1 hc]
      exact hd.passable (s := .anyEntryClose) hr (by decide)
  | divider =>
    refine Passes.of_forall fun c hc => ?_
    rw [List.mem_singleton.1 hc]
    exact hd.passable (s := .continuation) hr (by decide)
  | key hname =>
    refine Passes.of_forall fun c hc => ?_
    exact ⟨hname.ne hc (by simp [Delimiters.keyStops]), hname.ne hc (by simp [Delimiters.keyStops]),
      hname.ne hc (mem_keyStops_of_splits hr)⟩

/-! ### The heads of tokens -/

/-- The characters at the head of the steps that may lead. -/
def Delimiters.leads (d : Delimiters) : List Char :=
  [d.contextMarker, d.indexOpen, d.defaultOpen, d.anyEntryOpen]

theorem mem_leads_iff {c : Char} : c ∈ d.leads ↔
    c = d.contextMarker ∨ c = d.indexOpen ∨ c = d.defaultOpen ∨ c = d.anyEntryOpen := by
  simp [Delimiters.leads]

/-- The other structural delimiters stand at the head of no step that may lead. -/
theorem Delimiters.Legal.not_mem_leads (hd : d.Legal) {r : Role} (hr : r ∈ Role.structural ∧
    r ≠ .contextMarker ∧ r ≠ .indexOpen ∧ r ≠ .defaultOpen ∧ r ≠ .anyEntryOpen) :
    d.char r ∉ d.leads := by
  rw [mem_leads_iff, not_or, not_or, not_or]
  exact ⟨hd.ne (s := .contextMarker) ⟨hr.1, by decide, hr.2.1⟩,
    hd.ne (s := .indexOpen) ⟨hr.1, by decide, hr.2.2.1⟩,
    hd.ne (s := .defaultOpen) ⟨hr.1, by decide, hr.2.2.2.1⟩,
    hd.ne (s := .anyEntryOpen) ⟨hr.1, by decide, hr.2.2.2.2⟩⟩

theorem mem_keyStops_of_mem_leads {c : Char} (h : c ∈ d.leads) : c ∈ d.keyStops := by
  rcases mem_leads_iff.1 h with rfl | rfl | rfl | rfl <;> simp [Delimiters.keyStops]

/-- A token does not begin with a blank, and its head tells what kind of step it is. -/
theorem SpellsStep.exists_cons (hd : d.Legal) {token : List Char} {s : Step}
    (h : SpellsStep d token s) : ∃ c rest, token = c :: rest ∧ isBlank c = false ∧
      (c ∈ d.leads ↔ s.mayLead = true) ∧ (c ∈ d.keyStops ↔ s.isKey = false) := by
  cases h with
  | capture =>
    exact ⟨_, _, rfl, hd.notBlank .contextMarker, by simp [Delimiters.leads, Step.mayLead],
      by simp [Delimiters.keyStops, Step.isKey]⟩
  | index =>
    exact ⟨_, _, rfl, hd.notBlank .indexOpen, by simp [Delimiters.leads, Step.mayLead],
      by simp [Delimiters.keyStops, Step.isKey]⟩
  | default =>
    exact ⟨_, _, rfl, hd.notBlank .defaultOpen, by simp [Delimiters.leads, Step.mayLead],
      by simp [Delimiters.keyStops, Step.isKey]⟩
  | anyEntry =>
    exact ⟨_, _, rfl, hd.notBlank .anyEntryOpen, by simp [Delimiters.leads, Step.mayLead],
      by simp [Delimiters.keyStops, Step.isKey]⟩
  | divider =>
    have hleads : d.continuation ∉ d.leads := hd.not_mem_leads (r := .continuation) (by decide)
    exact ⟨_, _, rfl, hd.notBlank .continuation, by simp [hleads, Step.mayLead],
      by simp [Delimiters.keyStops, Step.isKey]⟩
  | @key name hname =>
    obtain ⟨c, rest, rfl⟩ := List.exists_cons_of_ne_nil hname.ne_nil
    have hstop : c ∉ d.keyStops := hname.not_stop c List.mem_cons_self
    have hleads : c ∉ d.leads := fun h => hstop (mem_keyStops_of_mem_leads h)
    exact ⟨c, rest, rfl, isBlank_of_trim hname.trimmed, by simp [hleads, Step.mayLead],
      by simp [hstop, Step.isKey]⟩

/-! ### What a turn reads -/

theorem readBracket_eq_ok_iff {opening closing : Char} {quoted : Bool} {tail after : List Char}
    {read : String → List Char → Except CompileError Step} {s : Step} :
    readBracket opening closing quoted tail read = .ok (.step s after) ↔
      ∃ inside, closing? closing quoted none tail = some (inside, after) ∧
        read (.ofList (opening :: inside ++ [closing])) inside = .ok s := by
  unfold readBracket
  constructor
  · intro h
    split at h
    next => simp at h
    next inside after' hclosing =>
      split at h
      next => simp at h
      next s' hread =>
        simp only [Except.ok.injEq, Turn.step.injEq] at h
        obtain ⟨rfl, rfl⟩ := h
        exact ⟨inside, hclosing, hread⟩
  · intro h
    obtain ⟨inside, hclosing, hread⟩ := h
    rw [hclosing]
    simp only [hread]

/-- At the opening of an index, a turn reads the index that the text up to its end spells. -/
theorem turn_indexOpen_iff (hd : d.Legal) {segment tail after : List Char} {isLast : Bool}
    {s : Step} : turn d segment isLast d.indexOpen tail = .ok (.step s after) ↔
      ∃ inside i, s = .index i ∧ SpellsIndex d inside i ∧ d.indexClose ∉ inside ∧
        tail = inside ++ d.indexClose :: after := by
  have hctx : d.indexOpen ≠ d.contextMarker :=
    hd.ne (r := .indexOpen) (s := .contextMarker) (by decide)
  rw [turn, if_neg hctx, if_pos rfl, readBracket_eq_ok_iff]
  constructor
  · intro h
    obtain ⟨inside, hclosing, hread⟩ := h
    obtain ⟨htail, hclose⟩ := closing?_plain_iff.1 hclosing
    split at hread
    next i hindex =>
      exact ⟨inside, i, (Except.ok.inj hread).symm, (readIndex_eq_ok_iff hd).1 hindex, hclose,
        htail⟩
    next => simp at hread
  · intro h
    obtain ⟨inside, i, rfl, hindex, hclose, htail⟩ := h
    refine ⟨inside, closing?_plain_iff.2 ⟨htail, hclose⟩, ?_⟩
    simp only [(readIndex_eq_ok_iff hd).2 hindex]

/-- At the opening of a default, a turn reads the default that the text up to its end spells. -/
theorem turn_defaultOpen_iff (hd : d.Legal) {segment tail after : List Char} {isLast : Bool}
    {s : Step} : turn d segment isLast d.defaultOpen tail = .ok (.step s after) ↔
      ∃ inside v, s = .default v ∧ SpellsDefault d inside v ∧ Quoted d.defaultClose none inside ∧
        tail = inside ++ d.defaultClose :: after := by
  have hctx : d.defaultOpen ≠ d.contextMarker :=
    hd.ne (r := .defaultOpen) (s := .contextMarker) (by decide)
  have hindex : d.defaultOpen ≠ d.indexOpen :=
    hd.ne (r := .defaultOpen) (s := .indexOpen) (by decide)
  rw [turn, if_neg hctx, if_neg hindex, if_pos rfl, readBracket_eq_ok_iff]
  constructor
  · intro h
    obtain ⟨inside, hclosing, hread⟩ := h
    obtain ⟨htail, hquoted⟩ := closing?_quoted_iff.1 hclosing
    cases hdefault :
        readDefault d (.ofList (d.defaultOpen :: inside ++ [d.defaultClose])) inside with
    | error e =>
      rw [hdefault] at hread
      cases hread
    | ok v =>
      rw [hdefault] at hread
      exact ⟨inside, v, (Except.ok.inj hread).symm, (readDefault_eq_ok_iff hd).1 hdefault, hquoted,
        htail⟩
  · intro h
    obtain ⟨inside, v, rfl, hdefault, hquoted, htail⟩ := h
    refine ⟨inside, closing?_quoted_iff.2 ⟨htail, hquoted⟩, ?_⟩
    rw [(readDefault_eq_ok_iff hd).2 hdefault]
    rfl

theorem trim_eq_wildcard_iff (hd : d.Legal) {inside : List Char} :
    trim inside = [d.wildcard] ↔ Padded [d.wildcard] inside := by
  constructor
  · intro h
    rw [← h]
    exact padded_trim inside
  · intro h
    rw [trim_of_padded h]
    exact trim_of_forall fun c hc => by
      rw [List.mem_singleton.1 hc]
      exact hd.notBlank .wildcard

/-- At the opening of a wildcard for every entry, a turn reads it if nothing else is inside. -/
theorem turn_anyEntryOpen_iff (hd : d.Legal) {segment tail after : List Char} {isLast : Bool}
    {s : Step} : turn d segment isLast d.anyEntryOpen tail = .ok (.step s after) ↔
      ∃ inside, s = .anyEntry ∧ Padded [d.wildcard] inside ∧
        tail = inside ++ d.anyEntryClose :: after := by
  have hctx : d.anyEntryOpen ≠ d.contextMarker :=
    hd.ne (r := .anyEntryOpen) (s := .contextMarker) (by decide)
  have hindex : d.anyEntryOpen ≠ d.indexOpen :=
    hd.ne (r := .anyEntryOpen) (s := .indexOpen) (by decide)
  have hdefault : d.anyEntryOpen ≠ d.defaultOpen :=
    hd.ne (r := .anyEntryOpen) (s := .defaultOpen) (by decide)
  rw [turn, if_neg hctx, if_neg hindex, if_neg hdefault, if_pos rfl, readBracket_eq_ok_iff]
  constructor
  · intro h
    obtain ⟨inside, hclosing, hread⟩ := h
    obtain ⟨htail, -⟩ := closing?_plain_iff.1 hclosing
    split at hread
    next htrim =>
      exact ⟨inside, (Except.ok.inj hread).symm, (trim_eq_wildcard_iff hd).1 htrim, htail⟩
    next => simp at hread
  · intro h
    obtain ⟨inside, rfl, hpad, htail⟩ := h
    have hclose : d.anyEntryClose ∉ inside := by
      intro hmem
      rcases hpad.mem hmem with hmem | hblank
      · exact hd.ne (r := .anyEntryClose) (s := .wildcard) (by decide) (List.mem_singleton.1 hmem)
      · exact hd.ne_of_isBlank .anyEntryClose hblank rfl
    exact ⟨inside, closing?_plain_iff.2 ⟨htail, hclose⟩, if_pos ((trim_eq_wildcard_iff hd).2 hpad)⟩

/-- Where no step that may lead begins, a turn is decided by the cuts of the rest. -/
theorem turn_of_not_leads {segment : List Char} {isLast : Bool} {head : Char} {tail : List Char}
    (h : head ∉ d.leads) : turn d segment isLast head tail =
      if (split d d.alternation (head :: tail)).2 ≠ [] then
        if isLast then .ok (.alternation ((split d d.alternation (head :: tail)).1 ::
          (split d d.alternation (head :: tail)).2))
        else .error (.misplacedAlternation (.ofList segment))
      else if head = d.continuation ∨ head = d.segmentDivider then .ok (.step .divider tail)
      else .ok (.step (.key (.ofList (trim (head :: tail.takeWhile (!d.keyEnds.contains ·)))))
        (tail.dropWhile (!d.keyEnds.contains ·))) := by
  rw [mem_leads_iff, not_or, not_or, not_or] at h
  obtain ⟨h₁, h₂, h₃, h₄⟩ := h
  rw [turn, if_neg h₁, if_neg h₂, if_neg h₃, if_neg h₄]

theorem mem_keyEnds_iff {c : Char} : c ∈ d.keyEnds ↔
    c ∈ d.leads ∨ c = d.continuation ∨ c = d.segmentDivider := by
  simp only [Delimiters.keyEnds, Delimiters.leads, List.mem_cons, List.not_mem_nil, or_false]
  constructor
  · rintro (h | h | h | h | h | h) <;> simp [h]
  · rintro ((h | h | h | h) | h | h) <;> simp [h]

theorem mem_keyStops_iff {c : Char} : c ∈ d.keyStops ↔ c ∈ d.keyEnds ∨ c = d.alternation := by
  simp only [Delimiters.keyEnds, Delimiters.keyStops, List.mem_cons, List.not_mem_nil, or_false]
  constructor
  · rintro (h | h | h | h | h | h | h) <;> simp [h]
  · rintro ((h | h | h | h | h | h) | h) <;> simp [h]

theorem not_mem_keyEnds_of_isBlank (hd : d.Legal) {c : Char} (hc : isBlank c = true) :
    c ∉ d.keyEnds := by
  simp only [Delimiters.keyEnds, List.mem_cons, List.not_mem_nil, or_false, not_or]
  exact ⟨(hd.ne_of_isBlank .indexOpen hc).symm, (hd.ne_of_isBlank .defaultOpen hc).symm,
    (hd.ne_of_isBlank .anyEntryOpen hc).symm, (hd.ne_of_isBlank .contextMarker hc).symm,
    (hd.ne_of_isBlank .continuation hc).symm, (hd.ne_of_isBlank .segmentDivider hc).symm⟩

/-- A key runs through the blanks after it, up to the end or the character that ends it. -/
theorem span_key (hd : d.Legal) {name after : List Char} (hname : ∀ c ∈ name, c ∉ d.keyEnds)
    (hafter : ∀ c rest, trimStart after = c :: rest → c ∈ d.keyEnds) :
    (name ++ after).takeWhile (!d.keyEnds.contains ·) = name ++ after.takeWhile isBlank ∧
      (name ++ after).dropWhile (!d.keyEnds.contains ·) = trimStart after := by
  have hrun : ∀ c ∈ name ++ after.takeWhile isBlank, (!d.keyEnds.contains c) = true := by
    intro c hc
    rw [List.contains_eq_mem, Bool.not_eq_true', decide_eq_false_iff_not]
    rcases List.mem_append.1 hc with hc | hc
    · exact hname c hc
    · exact not_mem_keyEnds_of_isBlank hd (blank_takeWhile after c hc)
  have htext : name ++ after = (name ++ after.takeWhile isBlank) ++ trimStart after := by
    rw [List.append_assoc, takeWhile_append_trimStart]
  rw [htext, List.takeWhile_append_of_pos hrun, List.dropWhile_append_of_pos hrun]
  cases hrest : trimStart after with
  | nil => simp
  | cons c rest =>
    have hc : (!d.keyEnds.contains c) = false := by
      simp [List.contains_eq_mem, hafter c rest hrest]
    rw [List.takeWhile_cons, List.dropWhile_cons, hc]
    simp

/-- In a text that the alternation does not cut, what ends a key is none. -/
theorem mem_keyEnds_of_endsKey (hd : d.Separable) {name after : List Char} (hname : KeyName d name)
    (hends : EndsKey d after) (huncut : Uncut d d.alternation (name ++ after)) :
    ∀ c rest, trimStart after = c :: rest → c ∈ d.keyEnds := by
  intro c rest hrest
  rcases mem_keyStops_iff.1 (hends c rest hrest) with h | rfl
  · exact h
  exfalso
  have hpass : Passes d d.alternation (name ++ after.takeWhile isBlank) :=
    ((SpellsStep.key hname).passes hd (r := .alternation) (Or.inr rfl)).append
      (passes_blank hd.toLegal .alternation (blank_takeWhile after))
  rw [← takeWhile_append_trimStart after, ← List.append_assoc, hpass.uncut_append_iff, hrest]
    at huncut
  exact ne_of_uncut_cons (hd.separates (r := .alternation) (Or.inr rfl)) huncut rfl

/-- A turn reads the token at the head of a text, and leaves what follows it. Only in front of an
uncut rest are dividers and keys read. -/
theorem turn_of_spellsStep (hd : d.Separable) (segment : List Char) (isLast : Bool)
    {token after tail : List Char} {s : Step} {head : Char} (h : SpellsStep d token s)
    (htext : token ++ after = head :: tail)
    (hends : s.isKey = true → EndsKey d after)
    (huncut : s.mayLead = false → Uncut d d.alternation (head :: tail)) :
    ∃ after', turn d segment isLast head tail = .ok (.step s after') ∧
      trimStart after' = trimStart after := by
  cases h with
  | capture =>
    obtain ⟨rfl, rfl⟩ := List.cons.inj htext
    exact ⟨_, if_pos rfl, rfl⟩
  | @index inside i hindex hclose =>
    obtain ⟨rfl, rfl⟩ := List.cons.inj htext
    exact ⟨after, (turn_indexOpen_iff hd.toLegal).2 ⟨inside, i, rfl, hindex, hclose, by simp⟩, rfl⟩
  | @default inside v hdefault hquoted =>
    obtain ⟨rfl, rfl⟩ := List.cons.inj htext
    exact ⟨after, (turn_defaultOpen_iff hd.toLegal).2 ⟨inside, v, rfl, hdefault, hquoted, by simp⟩,
      rfl⟩
  | @anyEntry inside hpad =>
    obtain ⟨rfl, rfl⟩ := List.cons.inj htext
    exact ⟨after, (turn_anyEntryOpen_iff hd.toLegal).2 ⟨inside, rfl, hpad, by simp⟩, rfl⟩
  | divider =>
    obtain ⟨rfl, rfl⟩ := List.cons.inj htext
    refine ⟨after, ?_, rfl⟩
    have hleads : d.continuation ∉ d.leads :=
      hd.toLegal.not_mem_leads (r := .continuation) (by decide)
    have hparts := huncut rfl
    rw [Uncut] at hparts
    rw [turn_of_not_leads hleads, if_neg (not_not_intro hparts), if_pos (Or.inl rfl)]
    rfl
  | @key name hname =>
    obtain ⟨c, rest, rfl⟩ := List.exists_cons_of_ne_nil hname.ne_nil
    obtain ⟨rfl, rfl⟩ := List.cons.inj htext
    have hparts : Uncut d d.alternation (c :: (rest ++ after)) := huncut rfl
    have hnot : ∀ x ∈ c :: rest, x ∉ d.keyEnds := fun x hx hmem =>
      hname.not_stop x hx (mem_keyStops_iff.2 (Or.inl hmem))
    have hhead := hnot c List.mem_cons_self
    rw [mem_keyEnds_iff, not_or] at hhead
    obtain ⟨htake, hdrop⟩ := span_key (d := d) hd.toLegal
      (fun x hx => hnot x (List.mem_cons_of_mem c hx))
      (mem_keyEnds_of_endsKey hd hname (hends rfl) hparts)
    refine ⟨trimStart after, ?_, ?_⟩
    · rw [Uncut] at hparts
      have htrim : trim (c :: (rest ++ after.takeWhile isBlank)) = c :: rest := by
        rw [← List.cons_append, trim_append_right (blank_takeWhile after), hname.trimmed]
      show turn d segment isLast c (rest ++ after) = _
      rw [turn_of_not_leads hhead.1, if_neg (not_not_intro hparts), if_neg hhead.2, htake, hdrop,
        htrim]
    · exact trimStart_trimStart after

/-! ### What was read -/

theorem not_mem_keyEnds_of_takeWhile {tail : List Char} {c : Char}
    (hc : c ∈ tail.takeWhile (!d.keyEnds.contains ·)) : c ∉ d.keyEnds := by
  have h := List.mem_takeWhile_imp hc
  rw [List.contains_eq_mem, Bool.not_eq_true', decide_eq_false_iff_not] at h
  exact h

theorem mem_keyEnds_of_dropWhile {tail rest : List Char} {c : Char}
    (h : tail.dropWhile (!d.keyEnds.contains ·) = c :: rest) : c ∈ d.keyEnds := by
  have hhead := List.head?_dropWhile_not (!d.keyEnds.contains ·) tail
  rw [h, List.head?_cons] at hhead
  simpa [List.contains_eq_mem] using hhead

/-- The rest of a text after a key ends the key. -/
theorem endsKey_dropWhile (hd : d.Legal) (blanks tail : List Char) (hb : Blank blanks) :
    EndsKey d (blanks ++ tail.dropWhile (!d.keyEnds.contains ·)) := by
  intro c rest hrest
  rw [trimStart_append hb] at hrest
  cases hdrop : tail.dropWhile (!d.keyEnds.contains ·) with
  | nil =>
    rw [hdrop] at hrest
    cases hrest
  | cons c' rest' =>
    have hc' := mem_keyEnds_of_dropWhile hdrop
    have hblank : isBlank c' = false := by
      rw [← Bool.not_eq_true]
      exact fun h => not_mem_keyEnds_of_isBlank hd h hc'
    rw [hdrop, trimStart_cons hblank, List.cons.injEq] at hrest
    exact mem_keyStops_iff.2 (Or.inl (hrest.1 ▸ hc'))

/-- The key at the head of a text that neither split cuts. -/
theorem keyName_of_takeWhile (hd : d.Legal) {head : Char} {tail core blanks : List Char}
    (hhead : head ∉ d.keyEnds) (huncut : Uncut d d.alternation (head :: tail))
    (htrim : trim (head :: tail.takeWhile (!d.keyEnds.contains ·)) = head :: core)
    (htext : head :: tail.takeWhile (!d.keyEnds.contains ·) = head :: core ++ blanks) :
    KeyName d (head :: core) := by
  have hname : ∀ c ∈ head :: tail.takeWhile (!d.keyEnds.contains ·), c ∉ d.keyEnds := by
    intro c hc
    rcases List.mem_cons.1 hc with rfl | hc
    · exact hhead
    · exact not_mem_keyEnds_of_takeWhile hc
  have halternation : d.alternation ∉ head :: tail.takeWhile (!d.keyEnds.contains ·) := by
    rw [← List.takeWhile_append_dropWhile (p := (!d.keyEnds.contains ·)) (l := tail),
      ← List.cons_append] at huncut
    refine not_mem_of_uncut (hd.separates (r := .alternation) (Or.inr rfl)) (fun c hc => ?_) huncut
    have hc := hname c hc
    exact ⟨fun h => hc (by simp [Delimiters.keyEnds, h]),
      fun h => hc (by simp [Delimiters.keyEnds, h])⟩
  refine ⟨List.cons_ne_nil _ _, by rw [← htrim, trim_trim], fun c hc hstop => ?_⟩
  have hc : c ∈ head :: tail.takeWhile (!d.keyEnds.contains ·) := by
    rw [htext]
    exact List.mem_append_left _ hc
  rcases mem_keyStops_iff.1 hstop with h | rfl
  · exact hname c hc h
  · exact halternation hc

/-- What a turn reads in a text of one segment is a token at its head. -/
theorem spellsStep_of_turn (hd : d.Separable) {segment tail after : List Char} {isLast : Bool}
    {head : Char} {s : Step} (hblank : isBlank head = false)
    (huncut : Uncut d d.segmentDivider (head :: tail))
    (h : turn d segment isLast head tail = .ok (.step s after)) :
    ∃ token blanks, SpellsStep d token s ∧ Blank blanks ∧
      head :: tail = token ++ (blanks ++ after) ∧ (s.isKey = true → EndsKey d (blanks ++ after)) ∧
      (s.mayLead = false → Uncut d d.alternation (head :: tail)) := by
  by_cases hleads : head ∈ d.leads
  · rcases mem_leads_iff.1 hleads with rfl | rfl | rfl | rfl
    · rw [turn, if_pos rfl, Except.ok.injEq, Turn.step.injEq] at h
      obtain ⟨rfl, rfl⟩ := h
      exact ⟨_, [], .capture, blank_nil, rfl, nofun, nofun⟩
    · obtain ⟨inside, i, rfl, hindex, hclose, rfl⟩ := (turn_indexOpen_iff hd.toLegal).1 h
      exact ⟨_, [], .index hindex hclose, blank_nil, by simp, nofun, nofun⟩
    · obtain ⟨inside, v, rfl, hdefault, hquoted, rfl⟩ := (turn_defaultOpen_iff hd.toLegal).1 h
      exact ⟨_, [], .default hdefault hquoted, blank_nil, by simp, nofun, nofun⟩
    · obtain ⟨inside, rfl, hpad, rfl⟩ := (turn_anyEntryOpen_iff hd.toLegal).1 h
      exact ⟨_, [], .anyEntry hpad, blank_nil, by simp, nofun, nofun⟩
  rw [turn_of_not_leads hleads] at h
  split at h
  next => split at h <;> simp at h
  next hparts =>
    have halternation : Uncut d d.alternation (head :: tail) := Classical.not_not.1 hparts
    split at h
    next hdivider =>
      rw [Except.ok.injEq, Turn.step.injEq] at h
      obtain ⟨rfl, rfl⟩ := h
      rcases hdivider with rfl | rfl
      · exact ⟨_, [], .divider, blank_nil, rfl, nofun, fun _ => halternation⟩
      · -- A segment divider outside brackets would have cut the text.
        have hsep := hd.separates (r := .segmentDivider) (Or.inl rfl)
        exact absurd rfl (ne_of_uncut_cons hsep huncut)
    next hdivider =>
      rw [Except.ok.injEq, Turn.step.injEq] at h
      obtain ⟨rfl, rfl⟩ := h
      have hhead : head ∉ d.keyEnds := by
        rw [mem_keyEnds_iff, not_or]
        exact ⟨hleads, hdivider⟩
      obtain ⟨core, blanks, htrim, hb, htext⟩ :=
        exists_trim_cons hblank (tail.takeWhile (!d.keyEnds.contains ·))
      rw [htrim]
      refine ⟨head :: core, blanks, .key (keyName_of_takeWhile hd.toLegal hhead halternation htrim
        htext), hb, ?_, fun _ => endsKey_dropWhile hd.toLegal blanks tail hb, fun _ => halternation⟩
      rw [← List.append_assoc, ← htext, List.cons_append, List.takeWhile_append_dropWhile]

/-- Where a step that may lead begins, a turn finds no alternation. -/
theorem turn_ne_alternation {segment tail : List Char} {isLast : Bool} {head : Char}
    {parts : List (List Char)} (hleads : head ∈ d.leads) :
    turn d segment isLast head tail ≠ .ok (.alternation parts) := by
  intro h
  rw [turn] at h
  split at h
  next => simp at h
  next hctx =>
    split at h
    next => exact readBracket_ne_alternation h
    next hindex =>
      split at h
      next => exact readBracket_ne_alternation h
      next hdefault =>
        split at h
        next => exact readBracket_ne_alternation h
        next hany =>
          rcases mem_leads_iff.1 hleads with h | h | h | h
          · exact hctx h
          · exact hindex h
          · exact hdefault h
          · exact hany h

/-- A turn finds an alternation exactly where no step that may lead begins and the rest, which has
to be in the last segment, is cut. -/
theorem turn_alternation_iff {segment tail : List Char} {isLast : Bool} {head : Char}
    {parts : List (List Char)} : turn d segment isLast head tail = .ok (.alternation parts) ↔
      head ∉ d.leads ∧ isLast = true ∧ ¬ Uncut d d.alternation (head :: tail) ∧
        parts = (split d d.alternation (head :: tail)).1 ::
          (split d d.alternation (head :: tail)).2 := by
  by_cases hleads : head ∈ d.leads
  · exact ⟨fun h => absurd h (turn_ne_alternation hleads), fun h => absurd hleads h.1⟩
  rw [turn_of_not_leads hleads]
  constructor
  · intro h
    split at h
    next hparts =>
      split at h
      next hlast =>
        rw [Except.ok.injEq, Turn.alternation.injEq] at h
        exact ⟨hleads, hlast, hparts, h.symm⟩
      next => simp at h
    next => split at h <;> simp at h
  · intro h
    obtain ⟨-, rfl, hparts, rfl⟩ := h
    rw [Uncut] at hparts
    rw [if_pos hparts, if_pos rfl]

end DocPath
