import DocPath.Proofs.Portable

/-!
# DocPath.Proofs.Collisions

Delimiters that are validated, and still not portable. There are three ways in which the text of a
path is read as something else:

* An index begins with the minus sign or the range separator of what stands in it, or a default
  does. The reader finds the end of the index, but the split into segments takes it for opened once
  more and never comes out of it. So the divider after the index is not seen, and what follows is
  read as one segment (`compileOps_forked_ne`).
* An index ends with the minus sign, so it is over before its bound (`compileOps_minusOne_ne`).
* A default ends with a quotation mark, or has one before its type. It is never closed
  (`compileOps_unclosed_ne`).

Each of them has a path that fits the delimiters. Hence every path that fits can be read back
exactly if the delimiters are portable (`compile_render_iff_portable`).
-/

namespace DocPath

open DocPath.Text

variable {d : Delimiters}

/-! ### Texts of one segment -/

theorem compileOps_of_uncut {text : List Char} (hblank : ∀ c ∈ text, isBlank c = false)
    (huncut : Uncut d d.segmentDivider text) :
    compileOps d text = scanSegment d text true text >>= Outline.toOps? d := by
  rw [compileOps_eq, outline_of_uncut huncut, trim_of_forall hblank]

/-- A text that begins like a step that may lead is compiled only if a turn reads such a step. -/
theorem exists_turn_of_compileOps {head : Char} {tail : List Char} {ops : List Op}
    (hblank : ∀ c ∈ head :: tail, isBlank c = false)
    (huncut : Uncut d d.segmentDivider (head :: tail)) (hleads : head ∈ d.leads)
    (h : compileOps d (head :: tail) = .ok ops) :
    ∃ s after, turn d (head :: tail) true head tail = .ok (.step s after) := by
  rw [compileOps_of_uncut hblank huncut, bind_eq_ok_iff] at h
  obtain ⟨o, ho, -⟩ := h
  have hhead := trimStart_cons (hblank head List.mem_cons_self) tail
  rw [scanSegment] at ho
  split at ho
  next hrest =>
    rw [hhead] at hrest
    cases hrest
  next head' tail' hrest =>
    obtain ⟨rfl, rfl⟩ := List.cons.inj (hhead.symm.trans hrest)
    split at ho
    next => cases ho
    next hturn => exact absurd hturn (turn_ne_alternation hleads)
    next s after hturn => exact ⟨s, after, hturn⟩

/-! ### Brackets that are opened once more -/

/-- Where an index or a default is opened inside an index, nothing is cut after the index. -/
theorem uncut_of_opened (hd : d.Legal) {separator x : Char}
    (hx : x = d.indexOpen ∨ x = d.defaultOpen) {before after rest : List Char}
    (hinside : ∀ c ∈ before ++ after, c.isDigit = true)
    (hrest : ∀ c ∈ rest, c ≠ d.defaultOpen ∧ c ≠ d.indexOpen ∧ c ≠ d.indexClose ∧
      c ≠ d.defaultClose) :
    Uncut d separator (d.indexOpen :: before ++ x :: (after ++ d.indexClose :: rest)) := by
  have hopen : d.indexOpen ≠ d.defaultOpen :=
    hd.ne (r := .indexOpen) (s := .defaultOpen) (by decide)
  have hbracket : ∀ c ∈ before ++ after,
      c ≠ d.defaultOpen ∧ c ≠ d.indexOpen ∧ c ≠ d.indexClose := by
    intro c hc
    have hdigit := hinside c hc
    exact ⟨(hd.ne_of_isDigit .defaultOpen hdigit).symm, (hd.ne_of_isDigit .indexOpen hdigit).symm,
      (hd.ne_of_isDigit .indexClose hdigit).symm⟩
  obtain ⟨hbefore, hafter⟩ := List.forall_mem_append.1 hbracket
  have hin : Crosses d separator (.outside 0) (.outside 1) (d.indexOpen :: before) :=
    (crosses_indexOpen hopen 0).append (crosses_index hbefore)
  rw [Uncut, split, hin.splitFrom_append_eq_nil_iff]
  rcases hx with rfl | rfl
  · -- The index is closed once, and opened twice.
    have hclose : Crosses d separator (.outside 2) (.outside 1) [d.indexClose] :=
      crosses_indexClose ⟨hd.ne (r := .indexClose) (s := .defaultOpen) (by decide),
        hd.ne (r := .indexClose) (s := .indexOpen) (by decide)⟩ 1
    have hrest : Crosses d separator (.outside 1) (.outside 1) rest :=
      crosses_index fun c hc => ⟨(hrest c hc).1, (hrest c hc).2.1, (hrest c hc).2.2.1⟩
    have hagain : Crosses d separator (.outside 1) (.outside 1)
        (d.indexOpen :: (after ++ d.indexClose :: rest)) :=
      (crosses_indexOpen hopen 1).append ((crosses_index hafter).append (hclose.append hrest))
    exact hagain.splitFrom_eq_nil
  · -- The default is never closed.
    have hunclosed : closing? d.defaultClose true none (after ++ d.indexClose :: rest) = none := by
      refine closing?_eq_none_of_not_mem fun hmem => ?_
      rcases List.mem_append.1 hmem with hmem | hmem
      · have hdigit := hinside _ (List.mem_append_right _ hmem)
        exact hd.ne_of_isDigit .defaultClose hdigit rfl
      rcases List.mem_cons.1 hmem with heq | hmem
      · exact hd.ne (r := .defaultClose) (s := .indexClose) (by decide) heq
      · exact (hrest _ hmem).2.2.2 rfl
    exact (crosses_defaultOpen 1).splitFrom_append_eq_nil_iff.2 (splitFrom_of_unclosed hunclosed)

/-- A path of an index, and of an alternation in the segment after it. -/
def Path.forked (i : Index) : Path :=
  ⟨[.index i, .divider, .alternatives [[.key "a"], [.key "b"]]]⟩

/-- The text of a forked path after its index. -/
def forkText (d : Delimiters) : List Char :=
  [d.segmentDivider, 'a', d.alternation, 'b']

theorem renderOps_forked (i : Index) :
    renderOps d (Path.forked i).ops = i.render d ++ forkText d := by
  simp [Path.forked, forkText, renderOps, Op.index, Op.divider, Op.isKey, Op.isAlternatives,
    Op.render, Step.render, renderAlternatives, renderSteps]

theorem mem_forkText_iff {c : Char} : c ∈ forkText d ↔
    c = d.segmentDivider ∨ c = 'a' ∨ c = d.alternation ∨ c = 'b' := by
  simp [forkText]

/-- Nothing after the index of a forked path is a blank or a bracket. -/
theorem forkText_not_bracket (hd : d.Legal) : ∀ c ∈ forkText d, isBlank c = false ∧
    c ≠ d.defaultOpen ∧ c ≠ d.indexOpen ∧ c ≠ d.indexClose ∧ c ≠ d.defaultClose := by
  have hletter : ∀ {c : Char}, c.isAlphanum = true → c ≠ d.defaultOpen ∧ c ≠ d.indexOpen ∧
      c ≠ d.indexClose ∧ c ≠ d.defaultClose := fun h =>
    ⟨(hd.ne_of_isAlphanum .defaultOpen h).symm, (hd.ne_of_isAlphanum .indexOpen h).symm,
      (hd.ne_of_isAlphanum .indexClose h).symm, (hd.ne_of_isAlphanum .defaultClose h).symm⟩
  have hsplits : ∀ {r : Role}, r.splits → d.char r ≠ d.defaultOpen ∧ d.char r ≠ d.indexOpen ∧
      d.char r ≠ d.indexClose ∧ d.char r ≠ d.defaultClose := by
    intro r hr
    have hsep := hd.separates hr
    have hclose := hd.splits_ne (s := .defaultClose) hr ⟨by decide, Role.not_splits (by decide)⟩
    exact ⟨hsep.ne_defaultOpen, hsep.ne_indexOpen, hsep.ne_indexClose, hclose.symm⟩
  intro c hc
  rcases mem_forkText_iff.1 hc with rfl | rfl | rfl | rfl
  · exact ⟨hd.notBlank .segmentDivider, hsplits (r := .segmentDivider) (Or.inl rfl)⟩
  · exact ⟨by decide, hletter (by decide)⟩
  · exact ⟨hd.notBlank .alternation, hsplits (r := .alternation) (Or.inr rfl)⟩
  · exact ⟨by decide, hletter (by decide)⟩

/-- The text after the index is read as an alternation, up to its divider. -/
theorem scanSegment_forkText (hd : d.Legal) (segment : List Char) :
    ∃ parts, parts ≠ [] ∧ scanSegment d segment true (forkText d) = .ok ⟨[], parts⟩ := by
  have hleads : d.segmentDivider ∉ d.leads := hd.not_mem_leads (r := .segmentDivider) (by decide)
  have hcut : ¬ Uncut d d.alternation (forkText d) := by
    intro huncut
    rw [← List.append_nil (forkText d)] at huncut
    have hsep := hd.separates (r := .alternation) (Or.inr rfl)
    have hnot := not_mem_of_uncut hsep (fun c hc =>
      ⟨(forkText_not_bracket hd c hc).2.1, (forkText_not_bracket hd c hc).2.2.1⟩) huncut
    exact hnot (mem_forkText_iff.2 (Or.inr (Or.inr (Or.inl rfl))))
  have hhead : trimStart (forkText d) = forkText d := trimStart_cons (hd.notBlank .segmentDivider) _
  exact ⟨_, List.cons_ne_nil _ _,
    scanSegment_of_alternation hhead (turn_alternation_iff.2 ⟨hleads, rfl, hcut, rfl⟩)⟩

theorem scanSegment_forked (hd : d.Legal) {inside : List Char} {i : Index}
    (hi : SpellsIndex d inside i) (hclose : d.indexClose ∉ inside) (segment : List Char) :
    ∃ parts, parts ≠ [] ∧ scanSegment d segment true
      (d.indexOpen :: inside ++ d.indexClose :: forkText d) = .ok ⟨[.index i], parts⟩ := by
  obtain ⟨parts, hparts, hrest⟩ := scanSegment_forkText hd segment
  have hturn : turn d segment true d.indexOpen (inside ++ d.indexClose :: forkText d) =
      .ok (.step (.index i) (forkText d)) :=
    (turn_indexOpen_iff hd).2 ⟨inside, i, rfl, hi, hclose, rfl⟩
  have hhead : trimStart (d.indexOpen :: inside ++ d.indexClose :: forkText d) =
      d.indexOpen :: (inside ++ d.indexClose :: forkText d) :=
    trimStart_cons (hd.notBlank .indexOpen) _
  refine ⟨parts, hparts, ?_⟩
  rw [scanSegment_of_step hhead hturn, hrest]

/-- A forked path is not read back where its divider does not cut the text. -/
theorem compileOps_forked_ne_of_uncut (hd : d.Legal) {inside : List Char} {i : Index}
    (hi : SpellsIndex d inside i) (hclose : d.indexClose ∉ inside)
    (hblank : ∀ c ∈ inside, isBlank c = false)
    (huncut : Uncut d d.segmentDivider (d.indexOpen :: inside ++ d.indexClose :: forkText d)) :
    compileOps d (d.indexOpen :: inside ++ d.indexClose :: forkText d) ≠
      .ok (Path.forked i).ops := by
  have hblank : ∀ c ∈ d.indexOpen :: inside ++ d.indexClose :: forkText d, isBlank c = false := by
    rw [List.cons_append, List.forall_mem_cons, List.forall_mem_append, List.forall_mem_cons]
    exact ⟨hd.notBlank .indexOpen, hblank, hd.notBlank .indexClose,
      fun c hc => (forkText_not_bracket hd c hc).1⟩
  obtain ⟨parts, hparts, hscan⟩ :=
    scanSegment_forked hd hi hclose (d.indexOpen :: inside ++ d.indexClose :: forkText d)
  intro h
  rw [compileOps_of_uncut hblank huncut, hscan, bind_eq_ok_iff] at h
  obtain ⟨o, ho, hops⟩ := h
  obtain rfl := Except.ok.inj ho
  -- The divider of the path is missing among what was read.
  rw [Outline.toOps?, if_neg (by simpa using hparts), map_eq_ok_iff] at hops
  obtain ⟨op, -, hops⟩ := hops
  simp [Path.forked] at hops

/-- A forked path is not read back if a bracket is opened once more in its index. -/
theorem compileOps_forked_ne (hd : d.Legal) {x : Char} (hx : x = d.indexOpen ∨ x = d.defaultOpen)
    {before after : List Char} {i : Index} (hinside : ∀ c ∈ before ++ after, c.isDigit = true)
    (hi : SpellsIndex d (before ++ x :: after) i)
    (hrender : i.render d = d.indexOpen :: (before ++ x :: after) ++ [d.indexClose]) :
    compileOps d (renderOps d (Path.forked i).ops) ≠ .ok (Path.forked i).ops := by
  have hbracket : isBlank x = false ∧ x ≠ d.indexClose := by
    rcases hx with rfl | rfl
    · exact ⟨hd.notBlank .indexOpen, hd.ne (r := .indexOpen) (s := .indexClose) (by decide)⟩
    · exact ⟨hd.notBlank .defaultOpen, hd.ne (r := .defaultOpen) (s := .indexClose) (by decide)⟩
  obtain ⟨hbefore, hafter⟩ := List.forall_mem_append.1 hinside
  have hblank : ∀ c ∈ before ++ x :: after, isBlank c = false := by
    rw [List.forall_mem_append, List.forall_mem_cons]
    exact ⟨fun c hc => isBlank_of_isDigit (hbefore c hc), hbracket.1,
      fun c hc => isBlank_of_isDigit (hafter c hc)⟩
  have hclose : d.indexClose ∉ before ++ x :: after := by
    rw [List.mem_append, List.mem_cons, not_or, not_or]
    exact ⟨fun h => hd.ne_of_isDigit .indexClose (hbefore _ h) rfl, hbracket.2.symm,
      fun h => hd.ne_of_isDigit .indexClose (hafter _ h) rfl⟩
  have huncut : Uncut d d.segmentDivider
      (d.indexOpen :: before ++ x :: (after ++ d.indexClose :: forkText d)) :=
    uncut_of_opened hd hx hinside fun c hc => (forkText_not_bracket hd c hc).2
  have htext : renderOps d (Path.forked i).ops =
      d.indexOpen :: (before ++ x :: after) ++ d.indexClose :: forkText d := by
    rw [renderOps_forked, hrender, List.append_assoc, List.singleton_append]
  rw [htext]
  exact compileOps_forked_ne_of_uncut hd hi hclose hblank (by simpa using huncut)

theorem ofNat_of_lt {n : Nat} (h : n < 10) : Numeral.ofNat n = [Numeral.digit n] := by
  rw [Numeral.ofNat, if_pos h]

/-- In the index of minus one, the minus sign stands after nothing. -/
theorem spelled_minusOne : SpellsIndex d ([] ++ '-' :: ['1']) (.one (.at (-1))) ∧
    (Index.one (.at (-1))).render d = d.indexOpen :: ([] ++ '-' :: ['1']) ++ [d.indexClose] := by
  have hbound : (Bound.at (-1)).render d = ['-', '1'] := by
    have hint : Int64.toInt (-1) = .negSucc 0 := by decide
    rw [Bound.render, hint, Numeral.ofInt, ofNat_of_lt (by decide)]
    rfl
  have hspells : SpellsIndex d ((Bound.at (-1)).render d) (.one (.at (-1))) :=
    .one (spellsBound_render _) (padded_self _)
  rw [hbound] at hspells
  refine ⟨hspells, ?_⟩
  simp [Index.render, Index.one, hbound]

/-- In a range, the separator stands between digits. -/
theorem spelled_oneToTwo :
    SpellsIndex d (['1'] ++ d.rangeSeparator :: ['2']) (.slice (.at 1) (.at 2)) ∧
      (Index.slice (.at 1) (.at 2)).render d =
        d.indexOpen :: (['1'] ++ d.rangeSeparator :: ['2']) ++ [d.indexClose] := by
  have hbound : ∀ {n : Nat} {w : Int64}, n < 10 → w.toInt = .ofNat n →
      (Bound.at w).render d = [Numeral.digit n] := by
    intro n w hn hw
    rw [Bound.render, hw, Numeral.ofInt, ofNat_of_lt hn]
  have hone : (Bound.at 1).render d = ['1'] := hbound (n := 1) (by decide) (by decide)
  have htwo : (Bound.at 2).render d = ['2'] := hbound (n := 2) (by decide) (by decide)
  have hspells : SpellsIndex d ((Bound.at 1).render d ++ d.rangeSeparator :: (Bound.at 2).render d)
      (.slice (.at 1) (.at 2)) :=
    .slice (spellsBound_render _) (padded_self _) (spellsBound_render _) (padded_self _)
  rw [hone, htwo] at hspells
  refine ⟨hspells, ?_⟩
  simp [Index.render, Index.slice, hone, htwo]

/-! ### Indexes that are closed too early -/

/-- If an index ends with a minus sign, there is nothing in one that begins with it. -/
theorem compileOps_minusOne_ne (hd : d.Legal) (hminus : d.indexClose = '-') (ops : List Op) :
    compileOps d (renderOps d [.index (.one (.at (-1)))]) ≠ .ok ops := by
  have htext : renderOps d [.index (.one (.at (-1)))] =
      d.indexOpen :: ['-', '1', d.indexClose] := spelled_minusOne.2
  have hblank : ∀ c ∈ d.indexOpen :: ['-', '1', d.indexClose], isBlank c = false := by
    simp only [List.forall_mem_cons]
    exact ⟨hd.notBlank .indexOpen, by decide, by decide, hd.notBlank .indexClose, nofun⟩
  have huncut : Uncut d d.segmentDivider (d.indexOpen :: ['-', '1', d.indexClose]) := by
    have hsep := hd.separates (r := .segmentDivider) (Or.inl rfl)
    have hdigit := hd.ne_of_isDigit .segmentDivider (c := '1') (by decide)
    refine uncut_of_not_mem ?_
    simp only [List.mem_cons, List.not_mem_nil, or_false, not_or]
    exact ⟨hsep.ne_indexOpen, hminus ▸ hsep.ne_indexClose, hdigit, hsep.ne_indexClose⟩
  intro h
  rw [htext] at h
  obtain ⟨s, after, hturn⟩ := exists_turn_of_compileOps hblank huncut
    (mem_leads_iff.2 (Or.inr (Or.inl rfl))) h
  obtain ⟨inside, i, -, hi, hclose, htail⟩ := (turn_indexOpen_iff hd).1 hturn
  obtain ⟨c, inside, rfl⟩ := List.exists_cons_of_ne_nil hi.ne_nil
  obtain ⟨rfl, -⟩ := List.cons.inj htail
  exact hclose (hminus ▸ List.mem_cons_self)

/-! ### Defaults that are not closed -/

/-- A default that is not closed is not read. -/
theorem compileOps_unclosed_ne (hd : d.Legal) {tail : List Char}
    (hblank : ∀ c ∈ tail, isBlank c = false)
    (hclosing : closing? d.defaultClose true none tail = none) (ops : List Op) :
    compileOps d (d.defaultOpen :: tail) ≠ .ok ops := by
  have huncut : Uncut d d.segmentDivider (d.defaultOpen :: tail) :=
    (crosses_defaultOpen 0).splitFrom_append_eq_nil_iff.2 (splitFrom_of_unclosed hclosing)
  intro h
  obtain ⟨s, after, hturn⟩ := exists_turn_of_compileOps
    (List.forall_mem_cons.2 ⟨hd.notBlank .defaultOpen, hblank⟩) huncut
    (mem_leads_iff.2 (Or.inr (Or.inr (Or.inl rfl)))) h
  obtain ⟨inside, v, -, -, hquoted, htail⟩ := (turn_defaultOpen_iff hd).1 hturn
  rw [closing?_quoted_iff.2 ⟨htail, hquoted⟩] at hclosing
  cases hclosing

/-- The default of one letter. -/
def Default.letter : Default := ⟨.string "x", .str, "x"⟩

theorem spelled_letter : Spelled .standard (.default .letter) := by
  have hvalue : DefaultKind.coerce .str ['x'] = .ok (.string "x") := rfl
  have hinside : SpellsDefault .standard ['x', ':', 's', 't', 'r'] .letter :=
    .mk (by decide) (padded_self ['x']) (padded_self _) hvalue
  have hquotes : ∀ c ∈ ['x', ':', 's', 't', 'r'],
      c ≠ Delimiters.standard.defaultClose ∧ isQuote c = false := by
    simp only [List.forall_mem_cons]
    exact ⟨by decide, by decide, by decide, by decide, by decide, nofun⟩
  exact ⟨_, .default hinside (quoted_of_forall (by decide) hquotes)⟩

theorem render_letter : Default.letter.render d =
    d.defaultOpen :: ['x', d.typeDelimiter, 's', 't', 'r', d.defaultClose] := by
  simp [Default.render, Default.letter, DefaultKind.name]

/-- A quotation mark at the end of a default, or before its type, leaves the default open. -/
theorem closing?_letter (hd : d.Legal)
    (h : isQuote d.defaultClose = true ∨ isQuote d.typeDelimiter = true) :
    closing? d.defaultClose true none ['x', d.typeDelimiter, 's', 't', 'r', d.defaultClose] =
      none := by
  rcases h with h | h
  · exact closing?_eq_none_of_isQuote h
  · have hletter : 'x' ≠ d.defaultClose := (hd.ne_of_isAlphanum .defaultClose (by decide)).symm
    have hnot : d.typeDelimiter ∉ ['s', 't', 'r', d.defaultClose] := by
      simp only [List.mem_cons, List.not_mem_nil, or_false, not_or]
      exact ⟨hd.ne_of_isAlphanum .typeDelimiter (by decide),
        hd.ne_of_isAlphanum .typeDelimiter (by decide),
        hd.ne_of_isAlphanum .typeDelimiter (by decide),
        hd.bracketed .typeDelimiter (.role .defaultClose) (by decide)⟩
    have hquote : closing? d.defaultClose true none [d.typeDelimiter, 's', 't', 'r', d.defaultClose]
        = none := by
      rw [closing?, h, Bool.true_and, if_pos rfl, closing?_eq_none_of_quote hnot]
      rfl
    rw [closing?, if_neg (by decide), if_neg hletter, hquote]
    rfl

theorem compileOps_letter_ne (hd : d.Legal)
    (h : isQuote d.defaultClose = true ∨ isQuote d.typeDelimiter = true) (ops : List Op) :
    compileOps d (renderOps d [.step (.default .letter)]) ≠ .ok ops := by
  have htext : renderOps d [.step (.default .letter)] =
      d.defaultOpen :: ['x', d.typeDelimiter, 's', 't', 'r', d.defaultClose] := render_letter
  have hblank : ∀ c ∈ ['x', d.typeDelimiter, 's', 't', 'r', d.defaultClose],
      isBlank c = false := by
    simp only [List.forall_mem_cons]
    exact ⟨by decide, hd.notBlank .typeDelimiter, by decide, by decide, by decide,
      hd.notBlank .defaultClose, nofun⟩
  rw [htext]
  exact compileOps_unclosed_ne hd hblank (closing?_letter hd h) ops

/-! ### The exact condition -/

theorem compile_render_eq_ok_iff {c : Compiler} {p : Path} :
    c.compile (p.render c.delimiters) = .ok p ↔
      compileOps c.delimiters (renderOps c.delimiters p.ops) = .ok p.ops := by
  rw [Compiler.compile, Path.render, String.toList_ofList, map_eq_ok_iff]
  constructor
  · intro h
    obtain ⟨ops, hops, rfl⟩ := h
    exact hops
  · exact fun h => ⟨p.ops, h, rfl⟩

theorem spelled_key {c : Char} (hc : c ∈ ['a', 'b']) :
    Spelled .standard (.key (.ofList [c])) := by
  have hc : c = 'a' ∨ c = 'b' := by simpa using hc
  rcases hc with rfl | rfl <;> exact ⟨_, .key (keyName_singleton (by decide) (by decide))⟩

theorem ofText?_forked {i : Index} (hi : i.plain = i) :
    Path.ofText? (Path.forked i).text = .ok (Path.forked i) := by
  have hstandard := Delimiters.separable_standard.toLegal
  have hsteps : ∀ s ∈ [Step.index i, .divider], Spelled .standard s.plain :=
    List.forall_mem_cons.2 ⟨spelled_index hstandard (by decide) i,
      List.forall_mem_singleton.2 ⟨_, .divider⟩⟩
  have hpaths : ∀ path ∈ [[Step.key "a"], [.key "b"]], ∀ s ∈ path, Spelled .standard s.plain :=
    List.forall_mem_cons.2 ⟨List.forall_mem_singleton.2 (spelled_key (c := 'a') (by decide)),
      List.forall_mem_singleton.2 (List.forall_mem_singleton.2
        (spelled_key (c := 'b') (by decide)))⟩
  have hreread : reread [.index i, .divider] [[.key "a"], [.key "b"]] =
      [.index i.plain, .divider, .alternatives [[.key "a"], [.key "b"]]] := rfl
  have hspells := spells_reread hstandard hsteps hpaths
  rw [hreread, hi] at hspells
  refine (ofText?_text_eq_ok_iff hspells).2 ⟨rfl, ?_⟩
  simp [Op.Single, Op.index, Op.divider, Step.isSingle]

theorem fits_forked (hd : d.Legal) (i : Index) : (Path.forked i).Fits d := by
  refine ⟨fun name hname => ?_, fun v hv => ?_⟩
  · have hname : name = "a" ∨ name = "b" := by
      simpa [Path.forked, Path.steps, Op.steps, Op.index, Op.divider] using hname
    rcases hname with rfl | rfl
    · exact List.forall_mem_singleton.2 (hd.not_mem_keyStops (c := 'a') (by decide))
    · exact List.forall_mem_singleton.2 (hd.not_mem_keyStops (c := 'b') (by decide))
  · simp [Path.forked, Path.steps, Op.steps, Op.index, Op.divider] at hv

theorem fits_letter (hd : d.Legal) : Path.Fits d ⟨[.step (.default .letter)]⟩ := by
  refine ⟨fun name hname => ?_, fun v hv => ?_⟩
  · simp [Path.steps, Op.steps] at hname
  · have hv : v = .letter := by simpa [Path.steps, Op.steps] using hv
    subst hv
    refine List.forall_mem_singleton.2 ⟨?_, by decide⟩
    exact (hd.ne_of_isAlphanum .defaultClose (by decide)).symm

theorem fits_index (i : Index) : Path.Fits d ⟨[.index i]⟩ := by
  refine ⟨fun name hname => ?_, fun v hv => ?_⟩
  · simp [Path.steps, Op.steps, Op.index] at hname
  · simp [Path.steps, Op.steps, Op.index] at hv

/-- Every path that fits the delimiters can be read back from its text in them, if it can in the
default ones. -/
def Delimiters.ReadBack (d : Delimiters) : Prop :=
  ∀ p : Path, Path.ofText? p.text = .ok p → p.Fits d →
    compileOps d (renderOps d p.ops) = .ok p.ops

namespace Delimiters.ReadBack

/-- Nothing is opened with what stands between digits in an index. -/
theorem opening_ne (h : d.ReadBack) (hd : d.Legal) {x : Char} {before after : List Char} {i : Index}
    (hplain : i.plain = i) (hinside : ∀ c ∈ before ++ after, c.isDigit = true)
    (hi : SpellsIndex d (before ++ x :: after) i)
    (hrender : i.render d = d.indexOpen :: (before ++ x :: after) ++ [d.indexClose]) :
    d.indexOpen ≠ x ∧ d.defaultOpen ≠ x := by
  rw [← not_or]
  intro hx
  exact compileOps_forked_ne hd (hx.imp Eq.symm Eq.symm) hinside hi hrender
    (h _ (ofText?_forked hplain) (fits_forked hd i))

theorem indexClose_ne_minus (h : d.ReadBack) (hd : d.Legal) : d.indexClose ≠ '-' := by
  intro hminus
  have hspelled := spelled_index separable_standard.toLegal (by decide) (.one (.at (-1)))
  exact compileOps_minusOne_ne hd hminus _ (h _ (ofText?_step hspelled rfl) (fits_index _))

theorem isQuote_eq_false (h : d.ReadBack) (hd : d.Legal) :
    isQuote d.defaultClose = false ∧ isQuote d.typeDelimiter = false := by
  rw [← Bool.not_eq_true, ← Bool.not_eq_true, ← not_or]
  intro hquote
  exact compileOps_letter_ne hd hquote _ (h _ (ofText?_step spelled_letter rfl) (fits_letter hd))

theorem portable (h : d.ReadBack) (hd : d.Legal) : d.Portable := by
  have hminus := h.opening_ne hd rfl (List.all_eq_true.1 (by decide)) spelled_minusOne.1
    spelled_minusOne.2
  have hrange := h.opening_ne hd rfl (List.all_eq_true.1 (by decide)) spelled_oneToTwo.1
    spelled_oneToTwo.2
  have hquote := h.isQuote_eq_false hd
  exact {
    toLegal := hd
    indexOpen_ne_minus := hminus.1
    indexOpen_ne_range := hrange.1
    defaultOpen_ne_minus := hminus.2
    defaultOpen_ne_range := hrange.2
    indexClose_ne_minus := h.indexClose_ne_minus hd
    isQuote_defaultClose := hquote.1
    isQuote_typeDelimiter := hquote.2 }

end Delimiters.ReadBack

/-- **Paths in other delimiters.** Take validated delimiters. Every path of the default delimiters
that fits them compiles to the same operations from its text in them, exactly if they are portable:
neither an index nor a default is opened with a minus sign or the range separator, no index is
closed with a minus sign, and no default has a quotation mark at its end or before its type. -/
theorem compile_render_iff_portable (c : Compiler) :
    (∀ text p, Path.ofText? text = .ok p → p.Fits c.delimiters →
      c.compile (p.render c.delimiters) = .ok p) ↔ c.delimiters.Portable := by
  constructor
  · intro h
    have hread : c.delimiters.ReadBack := fun p hp hfits =>
      compile_render_eq_ok_iff.1 (h _ p hp hfits)
    exact hread.portable (Delimiters.legal_of_validate c.valid)
  · intro hd text p hp hfits
    exact compile_render_eq_ok_iff.2 (compileOps_of_fits hd hp hfits)

end DocPath
