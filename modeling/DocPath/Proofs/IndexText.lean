import DocPath.Proofs.Reading

/-!
# DocPath.Proofs.IndexText

The text of an index alone. Whatever stands in its brackets, no separator cuts the text, for the
scan is inside the index up to the last character (`uncut_index`). So it is compiled in one turn,
and to what is read from its inside (`compileOps_index`): the index that the inside spells, or the
fault of the brackets (`index_text_exact`).

Neither depends on delimiters that can be told from the minus sign: a bracket that opens once more
inside is not looked for by the reader, and takes the scan only deeper.
-/

namespace DocPath

open DocPath.Text

variable {d : Delimiters} {separator : Char}

/-! ### Texts that are read in one turn -/

/-- A text of one segment is compiled to the step that takes all of it. -/
theorem compileOps_of_turn {head : Char} {tail : List Char} {s : Step}
    (htrim : trim (head :: tail) = head :: tail) (huncut : Uncut d d.segmentDivider (head :: tail))
    (hturn : turn d (head :: tail) true head tail = .ok (.step s [])) :
    compileOps d (head :: tail) = .ok [.step s] := by
  have hhead : trimStart (head :: tail) = head :: tail :=
    trimStart_cons (isBlank_of_trim htrim) tail
  rw [compileOps_eq, outline_of_uncut huncut, htrim, scanSegment_of_step hhead hturn,
    scanSegment_of_blank rfl]
  rfl

/-- A text of one segment fails as its first turn does. -/
theorem compileOps_of_turn_eq_error {head : Char} {tail : List Char} {e : CompileError}
    (htrim : trim (head :: tail) = head :: tail) (huncut : Uncut d d.segmentDivider (head :: tail))
    (hturn : turn d (head :: tail) true head tail = .error e) :
    compileOps d (head :: tail) = .error e := by
  have hhead : trimStart (head :: tail) = head :: tail :=
    trimStart_cons (isBlank_of_trim htrim) tail
  rw [compileOps_eq, outline_of_uncut huncut, htrim, scanSegment_of_failure hhead hturn]
  rfl

/-! ### The scan inside an index -/

/-- The number of open indexes. -/
def Zone.depth : Zone → Nat
  | outside depth => depth
  | inDefault depth => depth
  | inQuotes depth _ => depth

theorem Zone.cuts_of_depth {zone : Zone} (h : 0 < zone.depth) (c : Char) :
    zone.cuts d separator c = false := by
  cases zone with
  | outside depth =>
    cases depth with
    | zero => cases h
    | succ => rfl
  | _ => rfl

/-- Only the character that closes an index leads to a smaller depth. -/
theorem Zone.depth_le_next (zone : Zone) {c : Char} (hc : c ≠ d.indexClose) :
    zone.depth ≤ (zone.next d c).depth := by
  cases zone with
  | outside depth =>
    rw [next]
    split
    next => exact Nat.le_refl _
    next =>
      split
      next => exact Nat.le_succ depth
      next => exact Nat.le_refl _
  | inDefault depth =>
    rw [next]
    split
    next => exact Nat.le_refl _
    next => split <;> exact Nat.le_refl _
  | inQuotes depth quote =>
    rw [next]
    split <;> exact Nat.le_refl _

/-- Inside an index nothing is cut before the index is closed, nor at its closing character. -/
theorem splitFrom_of_depth {zone : Zone} {inside : List Char} (hdepth : 0 < zone.depth)
    (h : d.indexClose ∉ inside) :
    (splitFrom d separator zone (inside ++ [d.indexClose])).2 = [] := by
  induction inside generalizing zone with
  | nil => rw [List.nil_append, splitFrom_cons_of_not_cuts (zone.cuts_of_depth hdepth _)]; rfl
  | cons c inside ih =>
    rw [List.mem_cons, not_or] at h
    rw [List.cons_append, splitFrom_cons_of_not_cuts (zone.cuts_of_depth hdepth c)]
    exact ih (Nat.lt_of_lt_of_le hdepth (zone.depth_le_next (Ne.symm h.1))) h.2

/-- No separator cuts the text of an index, whatever its brackets hold. -/
theorem uncut_index (hd : d.Legal) {inside : List Char} (h : d.indexClose ∉ inside) :
    Uncut d separator (d.indexOpen :: inside ++ [d.indexClose]) := by
  have hopen : d.indexOpen ≠ d.defaultOpen :=
    hd.ne (r := .indexOpen) (s := .defaultOpen) (by decide)
  have hin : Crosses d separator (.outside 0) (.outside 1) [d.indexOpen] :=
    crosses_indexOpen hopen 0
  rw [Uncut, split, List.cons_append, ← List.singleton_append, hin.splitFrom_append_eq_nil_iff]
  exact splitFrom_of_depth Nat.one_pos h

/-! ### The text of an index -/

/-- At the opening of an index, a turn makes of it what is read from its inside. -/
theorem turn_indexOpen (hd : d.Legal) (segment after : List Char) (isLast : Bool)
    {inside : List Char} (h : d.indexClose ∉ inside) :
    turn d segment isLast d.indexOpen (inside ++ d.indexClose :: after) =
      match readIndex d inside with
      | .ok i => .ok (.step (.index i) after)
      | .error fault =>
        .error (.malformed (.ofList (d.indexOpen :: inside ++ [d.indexClose])) fault) := by
  have hctx : d.indexOpen ≠ d.contextMarker :=
    hd.ne (r := .indexOpen) (s := .contextMarker) (by decide)
  rw [turn, if_neg hctx, if_pos rfl, readBracket, closing?_plain_iff.2 ⟨rfl, h⟩]
  cases hread : readIndex d inside with
  | ok i => simp only [hread]
  | error fault => simp only [hread]

/-- The text of an index is compiled to what is read from its inside. -/
theorem compileOps_index (hd : d.Legal) {inside : List Char} (h : d.indexClose ∉ inside) :
    compileOps d (d.indexOpen :: inside ++ [d.indexClose]) =
      match readIndex d inside with
      | .ok i => .ok [.index i]
      | .error fault =>
        .error (.malformed (.ofList (d.indexOpen :: inside ++ [d.indexClose])) fault) := by
  have htrim := trim_of_ends (hd.notBlank .indexOpen) (hd.notBlank .indexClose) inside
  have hturn := turn_indexOpen hd (d.indexOpen :: inside ++ [d.indexClose]) [] true h
  cases hread : readIndex d inside with
  | ok i =>
    rw [hread] at hturn
    exact compileOps_of_turn htrim (uncut_index hd h) hturn
  | error fault =>
    rw [hread] at hturn
    exact compileOps_of_turn_eq_error htrim (uncut_index hd h) hturn

/-- **The text of an index is read exactly.** Take validated delimiters, and the brackets of an
index around any text without the closing one. It is compiled if, and only if, the text between
them is a bound, or two with one range separator between them, blanks around each: the wildcard, or
digits with a minus sign or none before them whose value is a word of sixty-four bits. It is
compiled to the index with exactly these bounds alone. Every other text is malformed, as a whole. -/
theorem index_text_exact (c : Compiler) {inside : String}
    (h : c.delimiters.indexClose ∉ inside.toList) :
    let text : String :=
      .ofList (c.delimiters.indexOpen :: inside.toList ++ [c.delimiters.indexClose])
    (∀ p, c.compile text = .ok p ↔
      ∃ i, SpellsIndex c.delimiters inside.toList i ∧ p = ⟨[.index i]⟩) ∧
      ((¬ ∃ i, SpellsIndex c.delimiters inside.toList i) →
        ∃ fault, c.compile text = .error (.malformed text fault)) := by
  intro text
  have hd := Delimiters.legal_of_validate c.valid
  have hcompile := compileOps_index hd h
  have htext : c.compile text = (compileOps c.delimiters
      (c.delimiters.indexOpen :: inside.toList ++ [c.delimiters.indexClose])).map Path.mk := by
    rw [Compiler.compile, String.toList_ofList]
  cases hread : readIndex c.delimiters inside.toList with
  | ok i =>
    rw [hread] at hcompile
    rw [htext, hcompile]
    have hi := (readIndex_eq_ok_iff hd).1 hread
    refine ⟨fun p => ⟨fun hp => ⟨i, hi, (Except.ok.inj hp).symm⟩, ?_⟩, fun hnot => ?_⟩
    · rintro ⟨i', hi', rfl⟩
      rw [(readIndex_eq_ok_iff hd).2 hi'] at hread
      rw [Except.ok.inj hread]
      rfl
    · exact absurd ⟨i, hi⟩ hnot
  | error fault =>
    rw [hread] at hcompile
    rw [htext, hcompile]
    refine ⟨fun p => ⟨fun hp => ?_, fun hp => ?_⟩, fun _ => ⟨fault, rfl⟩⟩
    · cases hp
    · obtain ⟨i, hi, -⟩ := hp
      rw [(readIndex_eq_ok_iff hd).2 hi] at hread
      cases hread

/-- The least word is read, and the number after the greatest one is refused. -/
theorem index_text_exact_extremes :
    let least : Index := .one (.at Int64.minValue)
    (']' ∉ "-9223372036854775808".toList ∧
        Path.ofText? "[-9223372036854775808]" = .ok ⟨[.index least]⟩) ∧
      ']' ∉ "9223372036854775808".toList ∧ ∃ fault, Path.ofText? "[9223372036854775808]" =
        .error (.malformed "[9223372036854775808]" fault) := by
  intro least
  have hd := Delimiters.separable_standard.toLegal
  have hleast : ']' ∉ "-9223372036854775808".toList := by decide
  have hbeyond : ']' ∉ "9223372036854775808".toList := by decide
  have hspells : SpellsIndex .standard "-9223372036854775808".toList least :=
    (readIndex_eq_ok_iff hd).1 rfl
  have hnot : ¬ ∃ i, SpellsIndex .standard "9223372036854775808".toList i := by
    rintro ⟨i, hi⟩
    have hread := (readIndex_eq_ok_iff hd).2 hi
    cases hread
  exact ⟨⟨hleast, ((index_text_exact .standard hleast).1 _).2 ⟨least, hspells, rfl⟩⟩,
    hbeyond, (index_text_exact .standard hbeyond).2 hnot⟩

end DocPath
