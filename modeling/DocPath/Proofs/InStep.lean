import DocPath.Proofs.Fragments

/-!
# DocPath.Proofs.InStep

The two scans of a text stay in step. A segment is read turn by turn, each turn looks at the rest
alone, and splits that rest anew; yet it is cut exactly where the segment as a whole is cut, since
what was read before has left all brackets and quotations that it entered (`InStep`). This holds at
the first rest (`InStep.start`) and from turn to turn (`InStep.step`), and so wherever the scan
comes to (`ComesTo.inStep`).

Nothing is left to be cut in the texts of alternatives, so an alternative has no alternation of its
own (`scans_in_step`).
-/

namespace DocPath

open DocPath.Text

variable {d : Delimiters} {text : List Char}

/-! ### Where a text is cut -/

/-- The places of the cuts between parts. -/
def cutsBetween (first : List Char) : List (List Char) → List Nat
  | [] => []
  | next :: others => first.length :: (cutsBetween next others).map (first.length + 1 + ·)

/-- The places at which a separator cuts a text. -/
def cutPlaces (d : Delimiters) (separator : Char) (text : List Char) : List Nat :=
  cutsBetween (split d separator text).1 (split d separator text).2

example : cutPlaces .standard '|' "[|].a|b<'|'>|".toList = [5, 12] := by decide

theorem cutsBetween_append (before first : List Char) (others : List (List Char)) :
    cutsBetween (before ++ first) others =
      (cutsBetween first others).map (before.length + ·) := by
  cases others with
  | nil => rfl
  | cons next others =>
    simp only [cutsBetween, List.map_cons, List.map_map, List.length_append, Function.comp_def,
      Nat.add_assoc]

theorem cutPlaces_eq_nil_iff {separator : Char} :
    cutPlaces d separator text = [] ↔ Uncut d separator text := by
  rw [cutPlaces, Uncut]
  cases (split d separator text).2 with
  | nil => exact iff_of_true rfl rfl
  | cons => exact iff_of_false (List.cons_ne_nil _ _) (List.cons_ne_nil _ _)

/-- Behind a text that is passed the cuts are those of the rest. -/
theorem Passes.cutPlaces_append {separator : Char} {consumed : List Char}
    (h : Passes d separator consumed) (rest : List Char) :
    cutPlaces d separator (consumed ++ rest) =
      (cutPlaces d separator rest).map (consumed.length + ·) := by
  have hsplit := h rest
  rw [cutPlaces, split, hsplit]
  exact cutsBetween_append ..

/-! ### Where the scan comes to -/

/-- While a text is compiled, the scan of a segment of it comes to a rest of the segment, without
blanks in front: at first to the whole segment, and from a rest at which a turn reads a step to what
the turn leaves. Where a turn finds an alternation, the texts of the alternatives are compiled in
the same way. A scan that fails does not come to all of these rests. -/
inductive ComesTo (d : Delimiters) : List Char → List Char → Bool → List Char → Prop
  | segment {text before part after} :
    (split d d.segmentDivider text).1 :: (split d d.segmentDivider text).2 =
      before ++ part :: after →
    ComesTo d text (trim part) after.isEmpty (trimStart (trim part))
  | step {text segment isLast head tail s after} : ComesTo d text segment isLast (head :: tail) →
    turn d segment isLast head tail = .ok (.step s after) →
    ComesTo d text segment isLast (trimStart after)
  | alternative {text segment isLast head tail parts part segment' isLast' rest} :
    ComesTo d text segment isLast (head :: tail) →
    turn d segment isLast head tail = .ok (.alternation parts) → part ∈ parts →
    ComesTo d (trim part) segment' isLast' rest → ComesTo d text segment' isLast' rest

variable {segment rest tail after part : List Char} {isLast : Bool} {head : Char} {s : Step}
  {parts : List (List Char)} {o : Outline}

/-- The rest of a segment at which its scan is in step with the split of the whole segment: the text
before the rest, which was read, is passed. -/
structure InStep (d : Delimiters) (segment rest : List Char) : Prop where
  uncut : Uncut d d.segmentDivider segment
  bare : trimStart rest = rest
  passed : ∃ consumed, segment = consumed ++ rest ∧
    ∀ r : Role, r.splits → Passes d (d.char r) consumed

namespace InStep

theorem start (hd : d.Legal) (h : Uncut d d.segmentDivider segment) :
    InStep d segment (trimStart segment) where
  uncut := h
  bare := trimStart_trimStart segment
  passed := ⟨segment.takeWhile isBlank, (takeWhile_append_trimStart segment).symm,
    fun r _ => passes_blank hd r (blank_takeWhile segment)⟩

/-- The rest is uncut by a separator as far as the whole segment is. -/
theorem uncut_iff (h : InStep d segment rest) {r : Role} (hr : r.splits) :
    Uncut d (d.char r) rest ↔ Uncut d (d.char r) segment := by
  obtain ⟨consumed, rfl, hpasses⟩ := h.passed
  exact (hpasses r hr).uncut_append_iff.symm

theorem step (hd : d.Separable) (h : InStep d segment (head :: tail))
    (hturn : turn d segment isLast head tail = .ok (.step s after)) :
    InStep d segment (trimStart after) := by
  have hrest : Uncut d d.segmentDivider (head :: tail) :=
    (h.uncut_iff (r := .segmentDivider) (Or.inl rfl)).2 h.uncut
  obtain ⟨token, blanks, hs, hb, htext, -, -⟩ :=
    spellsStep_of_turn hd (isBlank_of_trimStart h.bare) hrest hturn
  obtain ⟨consumed, hsegment, hpasses⟩ := h.passed
  -- The token is a whole step, so the brackets that it opens it closes, and both splits pass it.
  refine ⟨h.uncut, trimStart_trimStart after,
    consumed ++ (token ++ (blanks ++ after.takeWhile isBlank)), ?_, fun r hr => ?_⟩
  · rw [hsegment, htext]
    simp only [List.append_assoc, takeWhile_append_trimStart]
  · have hblanks := (passes_blank hd.toLegal r hb).append
      (passes_blank hd.toLegal r (blank_takeWhile after))
    exact (hpasses r hr).append ((hs.passes hd hr).append hblanks)

end InStep

/-- Wherever the scan comes to, it is in step. -/
theorem ComesTo.inStep (hd : d.Separable) (h : ComesTo d text segment isLast rest) :
    InStep d segment rest := by
  induction h with
  | segment hparts =>
    have huncut : Uncut d d.segmentDivider _ :=
      uncut_of_mem_split (Or.inl rfl) (List.mem_iff_append.2 ⟨_, _, hparts⟩)
    exact InStep.start hd.toLegal (Uncut.trim hd.toLegal (r := .segmentDivider) huncut)
  | step _ hturn ih => exact ih.step hd hturn
  | alternative _ _ _ _ _ ih => exact ih

/-! ### The texts of alternatives -/

/-- No separator cuts the texts of alternatives. -/
theorem ComesTo.uncut_part (hd : d.Separable) (h : ComesTo d text segment isLast (head :: tail))
    (hturn : turn d segment isLast head tail = .ok (.alternation parts)) (hpart : part ∈ parts)
    {r : Role} (hr : r.splits) : Uncut d (d.char r) (trim part) := by
  have hstep := h.inStep hd
  obtain ⟨-, -, -, rfl⟩ := turn_alternation_iff.1 hturn
  refine Uncut.trim hd.toLegal (uncut_of_mem_split ?_ hpart)
  rcases hr with rfl | rfl
  · exact Or.inr ((hstep.uncut_iff (Or.inl rfl)).2 hstep.uncut)
  · exact Or.inl rfl

/-- In a text that no separator cuts, the scan comes to no rest that is cut. -/
theorem ComesTo.uncut (hd : d.Separable) (htext : ∀ r : Role, r.splits → Uncut d (d.char r) text)
    (h : ComesTo d text segment isLast rest) {r : Role} (hr : r.splits) :
    Uncut d (d.char r) rest := by
  rw [(h.inStep hd).uncut_iff hr]
  induction h with
  | segment hparts =>
    -- The text is its only segment.
    have hone : Uncut d d.segmentDivider _ := htext .segmentDivider (Or.inl rfl)
    have hpart := List.mem_iff_append.2 ⟨_, _, hparts⟩
    rw [split_of_uncut hone, List.mem_singleton] at hpart
    subst hpart
    exact Uncut.trim hd.toLegal (htext r hr)
  | step _ _ ih => exact ih htext
  | alternative h hturn hpart _ _ ih => exact ih fun r hr => h.uncut_part hd hturn hpart hr

/-- A text that no separator cuts is compiled without an alternation. -/
theorem isAlternatives_of_uncut (hd : d.Separable)
    (htext : ∀ r : Role, r.splits → Uncut d (d.char r) text) {ops : List Op}
    (h : compileOps d text = .ok ops) : ∀ op ∈ ops, op.isAlternatives = false := by
  have hdivider := htext .segmentDivider (Or.inl rfl)
  have halternation := htext .alternation (Or.inr rfl)
  obtain ⟨steps, rfl, -⟩ := exists_spellsSteps_of_compileOps hd hdivider halternation h
  intro op hop
  obtain ⟨s, -, rfl⟩ := List.mem_map.1 hop
  rfl

/-! ### Alternatives that were found -/

theorem exists_of_mem_scanSegment (h : ComesTo d text segment isLast (trimStart rest))
    (ho : scanSegment d segment isLast rest = .ok o) (hpart : part ∈ o.alternatives) :
    ∃ head tail, ComesTo d text segment isLast (head :: tail) ∧
      turn d segment isLast head tail = .ok (.alternation o.alternatives) := by
  fun_induction scanSegment d segment isLast rest generalizing o with
  | case1 =>
    rw [← Except.ok.inj ho] at hpart
    cases hpart
  | case2 => cases ho
  | case3 rest head tail htrim parts hturn =>
    obtain rfl := Except.ok.inj ho
    exact ⟨head, tail, htrim ▸ h, hturn⟩
  | case4 => cases ho
  | case5 rest head tail htrim s after hturn o' ho' ih =>
    obtain rfl := Except.ok.inj ho
    have hafter := ih (.step (htrim ▸ h) hturn) ho' hpart
    exact hafter

theorem exists_of_mem_scanSegments {before others : List (List Char)}
    (hparts : (split d d.segmentDivider text).1 :: (split d d.segmentDivider text).2 =
      before ++ segment :: others)
    (ho : scanSegments d segment others = .ok o) (hpart : part ∈ o.alternatives) :
    ∃ segment isLast head tail, ComesTo d text segment isLast (head :: tail) ∧
      turn d segment isLast head tail = .ok (.alternation o.alternatives) := by
  induction others generalizing before segment o with
  | nil => exact ⟨_, _, exists_of_mem_scanSegment (.segment hparts) ho hpart⟩
  | cons next others ih =>
    unfold scanSegments at ho
    split at ho
    next => cases ho
    next =>
      split at ho
      next => cases ho
      next o' ho' =>
        obtain rfl := Except.ok.inj ho
        rw [List.append_cons] at hparts
        have hnext := ih hparts ho' hpart
        exact hnext

/-- The texts of alternatives were found by a turn that the scan came to. -/
theorem exists_of_mem_alternatives (ho : outline d text = .ok o) (hpart : part ∈ o.alternatives) :
    ∃ segment isLast head tail, ComesTo d text segment isLast (head :: tail) ∧
      turn d segment isLast head tail = .ok (.alternation o.alternatives) :=
  exists_of_mem_scanSegments (List.nil_append _).symm ho hpart

/-- The error about an alternation in an alternative blames no other operation. -/
theorem Op.isAlternatives_of_toStep? {op : Op} {path fragment : String}
    (h : op.toStep? path = .error (.nestedAlternation fragment)) : op.isAlternatives = true := by
  cases op with
  | alternatives => rfl
  | step s =>
    cases s with
    | index i =>
      rw [Op.toStep?] at h
      split at h
      next => cases h
      next => cases h
    | _ => cases h

/-- No alternative is found to have an alternation. By induction on the length of the text: the
texts of alternatives are shorter than it. -/
theorem compileOps_ne_nestedAlternation (hd : d.Separable) (text : List Char) (fragment : String) :
    compileOps d text ≠ .error (.nestedAlternation fragment) := by
  induction hlen : text.length using Nat.strong_induction_on generalizing text with
  | _ n ih =>
    subst hlen
    intro h
    rw [compileOps_eq, bind_eq_error_iff] at h
    rcases h with h | ⟨o, ho, h⟩
    · -- The errors of the outline blame no alternative.
      cases (quotes_of_outline h).1
    · rw [Outline.toOps?] at h
      split at h
      next => cases h
      next =>
        obtain ⟨part, hpart, h⟩ := exists_of_alternation?_eq_error (map_eq_error_iff.1 h)
        obtain ⟨segment, isLast, head, tail, hcomes, hturn⟩ := exists_of_mem_alternatives ho hpart
        rcases h with h | ⟨p, hcompile, hsteps⟩
        · have hlt : (trim part).length < text.length :=
            Nat.lt_of_le_of_lt (length_trim_le part) (length_lt_of_mem_alternatives ho hpart)
          exact ih _ hlt _ rfl h
        · -- The alternative was compiled from a text that no separator cuts.
          obtain ⟨op, hop, hnested⟩ := exists_of_mapM_eq_error hsteps
          have huncut := fun r hr => hcomes.uncut_part hd hturn hpart (r := r) hr
          have hstep := isAlternatives_of_uncut hd huncut hcompile op hop
          rw [Op.isAlternatives_of_toStep? hnested] at hstep
          cases hstep

/-! ### The default delimiters -/

/-- **The two scans stay in step.** Wherever the scan of a segment comes to while a text is compiled
in the default delimiters, in an alternative as well, the separators `.` and `|` cut the rest
exactly at those places at which they cut the whole segment. The rest does not begin with a `.`. If
it is an alternation, the scans of its alternatives come to no rest that is cut, and none of them
compiles to operations with an alternation among them. So there is never the error that an
alternative holds another alternation. -/
theorem scans_in_step (text : String) :
    (∀ segment isLast rest, ComesTo .standard text.toList segment isLast rest →
      (∃ consumed, segment = consumed ++ rest ∧ ∀ separator ∈ ['.', '|'],
        cutPlaces .standard separator segment =
          (cutPlaces .standard separator rest).map (consumed.length + ·)) ∧
      rest.head? ≠ some '.' ∧
      ∀ head tail parts, rest = head :: tail →
        turn .standard segment isLast head tail = .ok (.alternation parts) → ∀ part ∈ parts,
          (∀ segment isLast rest, ComesTo .standard (trim part) segment isLast rest →
            ∀ separator ∈ ['.', '|'], cutPlaces .standard separator rest = []) ∧
          ∀ ops, compileOps .standard (trim part) = .ok ops → ∀ op ∈ ops,
            op.isAlternatives = false) ∧
    ∀ fragment, Path.ofText? text ≠ .error (.nestedAlternation fragment) := by
  have hd := Delimiters.separable_standard
  have hsplits : ∀ separator ∈ ['.', '|'], ∃ r : Role, r.splits ∧
      Delimiters.standard.char r = separator := by
    intro separator hseparator
    rcases List.mem_pair.1 hseparator with rfl | rfl
    · exact ⟨.segmentDivider, Or.inl rfl, rfl⟩
    · exact ⟨.alternation, Or.inr rfl, rfl⟩
  refine ⟨fun segment isLast rest h => ⟨?_, ?_, ?_⟩, fun fragment h => ?_⟩
  · obtain ⟨consumed, hsegment, hpasses⟩ := (h.inStep hd).passed
    refine ⟨consumed, hsegment, fun separator hseparator => ?_⟩
    obtain ⟨r, hr, rfl⟩ := hsplits separator hseparator
    rw [hsegment]
    exact (hpasses r hr).cutPlaces_append rest
  · intro hhead
    obtain ⟨tail, rfl⟩ := List.head?_eq_some_iff.1 hhead
    have hstep := h.inStep hd
    have hrest := (hstep.uncut_iff (r := .segmentDivider) (Or.inl rfl)).2 hstep.uncut
    have hsep := hd.separates (r := .segmentDivider) (Or.inl rfl)
    exact ne_of_uncut_cons hsep hrest rfl
  · rintro head tail parts rfl hturn part hpart
    have huncut := fun r hr => h.uncut_part hd hturn hpart (r := r) hr
    refine ⟨fun segment isLast rest h separator hseparator => ?_,
      fun ops hops => isAlternatives_of_uncut hd huncut hops⟩
    obtain ⟨r, hr, rfl⟩ := hsplits separator hseparator
    exact cutPlaces_eq_nil_iff.2 (h.uncut hd huncut hr)
  · exact compileOps_ne_nestedAlternation hd text.toList fragment (map_eq_error_iff.1 h)

end DocPath
