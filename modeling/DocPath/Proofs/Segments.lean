import DocPath.Proofs.Padding
import Mathlib.Data.List.Forall2

/-!
# DocPath.Proofs.Segments

The reader on one segment. What it reads from a text of steps, or of steps before a body, are those
steps (`scanSegment_of_spellsSteps`, `scanSegment_of_spellsLead`); conversely a segment that it
reads is of one of these two forms (`spells_of_scanSegment`).

The body of an alternation is left unread (`Body`). Its parts each spell the path of an alternative
exactly if the body spells the alternatives (`SpellsAlternatives.split`,
`spellsAlternatives_of_split`).
-/

namespace DocPath

open DocPath.Text

variable {d : Delimiters} {segment : List Char} {isLast : Bool}

/-! ### Texts that the splits pass -/

theorem SpellsSteps.passes (hd : d.Separable) {r : Role} (hr : r.splits) {text : List Char}
    {steps : List Step} (h : SpellsSteps d text steps) : Passes d (d.char r) text := by
  induction h with
  | nil hb => exact passes_blank hd.toLegal r hb
  | cons hb hs _ _ ih => exact ((passes_blank hd.toLegal r hb).append (hs.passes hd hr)).append ih

/-- The steps before a body are passed. -/
theorem SpellsLead.uncut_iff (hd : d.Separable) {r : Role} (hr : r.splits) {body text : List Char}
    {steps : List Step} (h : SpellsLead d body text steps) :
    Uncut d (d.char r) text ↔ Uncut d (d.char r) body := by
  induction h with
  | nil hb => exact (passes_blank hd.toLegal r hb).uncut_append_iff
  | cons hb hs _ _ ih =>
    rw [((passes_blank hd.toLegal r hb).append (hs.passes hd hr)).uncut_append_iff, ih]

theorem uncut_trimStart_iff (hd : d.Legal) {r : Role} {text : List Char} :
    Uncut d (d.char r) (trimStart text) ↔ Uncut d (d.char r) text := by
  have hbefore := passes_blank hd r (blank_takeWhile text)
  rw [← hbefore.uncut_append_iff, takeWhile_append_trimStart]

/-- A text without a cut has none before any of its places either. -/
theorem Uncut.of_append {separator : Char} {zone : Zone} {a b : List Char}
    (h : (splitFrom d separator zone (a ++ b)).2 = []) : (splitFrom d separator zone a).2 = [] := by
  induction a generalizing zone with
  | nil => rfl
  | cons c a ih =>
    obtain ⟨hc, hrest⟩ := not_cuts_of_uncut h
    rw [splitFrom_cons_of_not_cuts hc]
    exact ih hrest

theorem Uncut.trim (hd : d.Legal) {r : Role} {text : List Char} (h : Uncut d (d.char r) text) :
    Uncut d (d.char r) (trim text) := by
  obtain ⟨before, after, hbefore, -, htext⟩ := padded_trim text
  rw [htext, List.append_assoc, (passes_blank hd r hbefore).uncut_append_iff] at h
  exact Uncut.of_append h

/-! ### The equations of the reader -/

theorem scanSegment_of_blank {rest : List Char} (h : trimStart rest = []) :
    scanSegment d segment isLast rest = .ok ⟨[], []⟩ := by
  rw [scanSegment]
  split
  next => rfl
  next hrest => simp [h] at hrest

theorem scanSegment_of_step {rest tail after : List Char} {head : Char} {s : Step}
    (h : trimStart rest = head :: tail)
    (hturn : turn d segment isLast head tail = .ok (.step s after)) :
    scanSegment d segment isLast rest =
      match scanSegment d segment isLast after with
      | .error e => .error e
      | .ok o => .ok ⟨s :: o.steps, o.alternatives⟩ := by
  rw [scanSegment]
  split
  next hrest => simp [h] at hrest
  next head' tail' hrest =>
    obtain ⟨rfl, rfl⟩ := List.cons.inj (h.symm.trans hrest)
    split
    next heq => simp [hturn] at heq
    next heq => simp [hturn] at heq
    next s' after' heq =>
      rw [hturn, Except.ok.injEq, Turn.step.injEq] at heq
      obtain ⟨rfl, rfl⟩ := heq
      rfl

theorem scanSegment_of_alternation {rest tail : List Char} {head : Char}
    {parts : List (List Char)} (h : trimStart rest = head :: tail)
    (hturn : turn d segment isLast head tail = .ok (.alternation parts)) :
    scanSegment d segment isLast rest = .ok ⟨[], parts⟩ := by
  rw [scanSegment]
  split
  next hrest => simp [h] at hrest
  next head' tail' hrest =>
    obtain ⟨rfl, rfl⟩ := List.cons.inj (h.symm.trans hrest)
    split
    next heq => simp [hturn] at heq
    next parts' heq =>
      rw [hturn, Except.ok.injEq, Turn.alternation.injEq] at heq
      rw [heq]
    next heq => simp [hturn] at heq

theorem scanSegment_of_failure {rest tail : List Char} {head : Char} {e : CompileError}
    (h : trimStart rest = head :: tail) (hturn : turn d segment isLast head tail = .error e) :
    scanSegment d segment isLast rest = .error e := by
  rw [scanSegment]
  split
  next hrest => simp [h] at hrest
  next head' tail' hrest =>
    obtain ⟨rfl, rfl⟩ := List.cons.inj (h.symm.trans hrest)
    split
    next e' heq =>
      rw [hturn] at heq
      rw [Except.error.inj heq]
    next heq => simp [hturn] at heq
    next heq => simp [hturn] at heq

/-- The reader does not see blanks in front. -/
theorem scanSegment_trimStart (rest : List Char) :
    scanSegment d segment isLast (trimStart rest) = scanSegment d segment isLast rest := by
  rw [scanSegment, scanSegment, trimStart_trimStart]

/-! ### What the reader reads -/

theorem trimStart_token {blanks token after rest : List Char} {c : Char} (hb : Blank blanks)
    (htoken : token = c :: rest) (hc : isBlank c = false) :
    trimStart (blanks ++ token ++ after) = c :: (rest ++ after) := by
  rw [List.append_assoc, trimStart_append hb, htoken, List.cons_append, trimStart_cons hc]

/-- A text of steps is read as these steps. -/
theorem scanSegment_of_spellsSteps (hd : d.Separable) {text : List Char} {steps : List Step}
    (h : SpellsSteps d text steps) : scanSegment d segment isLast text = .ok ⟨steps, []⟩ := by
  induction h with
  | nil hb => exact scanSegment_of_blank (trimStart_of_blank hb)
  | @cons blanks token after s steps hb hs hkey hafter ih =>
    obtain ⟨c, rest, htoken, hc, -⟩ := hs.exists_cons hd.toLegal
    have hpasses := (hs.passes hd (r := .alternation) (Or.inr rfl)).append
      (hafter.passes hd (r := .alternation) (Or.inr rfl))
    have huncut : Uncut d d.alternation (c :: (rest ++ after)) := by
      rw [← List.cons_append, ← htoken]
      exact hpasses.uncut
    obtain ⟨after', hturn, htrim⟩ := turn_of_spellsStep hd segment isLast hs
      (by rw [htoken, List.cons_append]) hkey fun _ => huncut
    rw [scanSegment_of_step (trimStart_token hb htoken hc) hturn, ← scanSegment_trimStart, htrim,
      scanSegment_trimStart, ih]

/-- Of a text of steps before a body, the steps are read, and then the body. -/
theorem scanSegment_of_spellsLead (hd : d.Separable) {body text : List Char} {steps : List Step}
    {parts : List (List Char)} (h : SpellsLead d body text steps)
    (hbody : scanSegment d segment isLast body = .ok ⟨[], parts⟩) :
    scanSegment d segment isLast text = .ok ⟨steps, parts⟩ := by
  induction h with
  | nil hb =>
    rw [← scanSegment_trimStart, trimStart_append hb, scanSegment_trimStart]
    exact hbody
  | @cons blanks token after s steps hb hs hlead _ ih =>
    obtain ⟨c, rest, htoken, hc, -⟩ := hs.exists_cons hd.toLegal
    have hkey : s.isKey = true → EndsKey d after := by
      intro h
      rw [Step.isKey_of_mayLead hlead] at h
      simp at h
    obtain ⟨after', hturn, htrim⟩ := turn_of_spellsStep hd segment isLast hs
      (by rw [htoken, List.cons_append]) hkey (by simp [hlead])
    rw [scanSegment_of_step (trimStart_token hb htoken hc) hturn, ← scanSegment_trimStart, htrim,
      scanSegment_trimStart, ih]

/-! ### The bodies of alternations -/

/-- A body that the reader takes for an alternation between the parts. -/
structure Body (d : Delimiters) (body : List Char) (parts : List (List Char)) : Prop where
  not_lead : ∀ c ∈ (trimStart body).head?, c ∉ d.leads
  cut : ¬ Uncut d d.alternation (trimStart body)
  parts_eq : parts = (split d d.alternation (trimStart body)).1 ::
    (split d d.alternation (trimStart body)).2

theorem Body.scanSegment {body : List Char} {parts : List (List Char)} (h : Body d body parts) :
    scanSegment d segment true body = .ok ⟨[], parts⟩ := by
  cases hbody : trimStart body with
  | nil =>
    refine absurd ?_ h.cut
    rw [hbody]
    rfl
  | cons head tail =>
    refine scanSegment_of_alternation hbody (turn_alternation_iff.2 ⟨?_, rfl, ?_, ?_⟩)
    · exact h.not_lead head (by rw [hbody]; rfl)
    · exact hbody ▸ h.cut
    · exact hbody ▸ h.parts_eq

/-- No separator cuts a token and the blanks after it. -/
theorem SpellsStep.uncut_append_iff (hd : d.Separable) {r : Role}
    (hr : r.splits) {token blanks after : List Char} {s : Step}
    (hs : SpellsStep d token s) (hb : Blank blanks) :
    Uncut d (d.char r) (token ++ (blanks ++ after)) ↔ Uncut d (d.char r) after := by
  have hpasses : Passes d (d.char r) (token ++ blanks) :=
    (hs.passes hd hr).append (passes_blank hd.toLegal r hb)
  rw [← List.append_assoc, hpasses.uncut_append_iff]

/-- The two forms of a segment that the reader reads. -/
theorem spells_of_scanSegment (hd : d.Separable) {rest : List Char} {o : Outline}
    (huncut : Uncut d d.segmentDivider rest) (h : scanSegment d segment isLast rest = .ok o) :
    (o.alternatives = [] ∧ SpellsSteps d rest o.steps) ∨
      (isLast = true ∧ ∃ body, SpellsLead d body rest o.steps ∧ Body d body o.alternatives) := by
  fun_induction scanSegment d segment isLast rest generalizing o with
  | case1 rest hrest =>
    rw [Except.ok.injEq] at h
    subst h
    exact Or.inl ⟨rfl, .nil (blank_of_trimStart hrest)⟩
  | case2 => simp at h
  | case3 rest head tail hrest parts hturn =>
    rw [Except.ok.injEq] at h
    subst h
    obtain ⟨hleads, hlast, hcut, hparts⟩ := turn_alternation_iff.1 hturn
    refine Or.inr ⟨hlast, rest, SpellsLead.nil blank_nil, ?_, hrest ▸ hcut, hrest ▸ hparts⟩
    rw [hrest]
    intro c hc
    rw [List.head?_cons, Option.mem_some_iff] at hc
    exact hc ▸ hleads
  | case4 => simp at h
  | case5 rest head tail hrest s after hturn o' ho' ih =>
    rw [Except.ok.injEq] at h
    subst h
    have hblanks := takeWhile_append_trimStart rest
    rw [hrest] at hblanks
    have hstart : Passes d d.segmentDivider (rest.takeWhile isBlank) :=
      passes_blank hd.toLegal .segmentDivider (blank_takeWhile rest)
    rw [← hblanks, hstart.uncut_append_iff] at huncut
    obtain ⟨token, blanks, hs, hb, htext, hkey, hlead⟩ :=
      spellsStep_of_turn hd (isBlank_of_trimStart hrest) huncut hturn
    have hrest' : rest = rest.takeWhile isBlank ++ token ++ (blanks ++ after) := by
      rw [List.append_assoc, ← htext, hblanks]
    have hafter : Uncut d d.segmentDivider after :=
      (hs.uncut_append_iff hd (r := .segmentDivider) (Or.inl rfl) hb).1 (htext ▸ huncut)
    rw [hrest']
    rcases ih hafter ho' with ⟨hnone, hsteps⟩ | ⟨hlast, body, hbody, hparts⟩
    · exact Or.inl ⟨hnone, .cons (blank_takeWhile rest) hs hkey (hsteps.blanks_append hb)⟩
    · refine Or.inr ⟨hlast, body, .cons (blank_takeWhile rest) hs ?_ (hbody.blanks_append hb),
        hparts⟩
      -- A step that may not lead would have been read in front of an uncut rest only.
      by_contra hnot
      rw [Bool.not_eq_true] at hnot
      have halternation : Uncut d d.alternation after :=
        (hs.uncut_append_iff hd (r := .alternation) (Or.inr rfl) hb).1 (htext ▸ hlead hnot)
      have hcut : Uncut d d.alternation body :=
        (hbody.uncut_iff hd (r := .alternation) (Or.inr rfl)).1 halternation
      exact hparts.cut ((uncut_trimStart_iff hd.toLegal (r := .alternation)).2 hcut)

/-! ### The parts of alternations -/

/-- The texts of alternatives are the parts of their text. -/
theorem SpellsAlternatives.split (hd : d.Separable) {text : List Char} {paths : List (List Step)}
    (h : SpellsAlternatives d text paths) :
    List.Forall₂ (SpellsSteps d) ((split d d.alternation text).1 :: (split d d.alternation text).2)
      paths := by
  have hsep : Separates d d.alternation := hd.separates (r := .alternation) (Or.inr rfl)
  induction h with
  | last hsteps =>
    have hpasses : Passes d d.alternation _ := hsteps.passes hd (r := .alternation) (Or.inr rfl)
    rw [split_of_uncut hpasses.uncut]
    exact .cons hsteps .nil
  | cons hfirst _ ih =>
    have hpasses : Passes d d.alternation _ := hfirst.passes hd (r := .alternation) (Or.inr rfl)
    rw [split_append_separator hsep hpasses]
    exact .cons hfirst ih

theorem spellsAlternatives_of_split {part : List Char} {parts : List (List Char)}
    {paths : List (List Step)} (h : List.Forall₂ (SpellsSteps d) (part :: parts) paths) :
    SpellsAlternatives d (joinParts d.alternation (part, parts)) paths := by
  induction parts generalizing part paths with
  | nil =>
    obtain ⟨path, rest, hpath, hrest, rfl⟩ := List.forall₂_cons_left_iff.1 h
    rw [List.forall₂_nil_left_iff.1 hrest, joinParts, List.flatMap_nil, List.append_nil]
    exact .last hpath
  | cons next parts ih =>
    obtain ⟨path, rest, hpath, hrest, rfl⟩ := List.forall₂_cons_left_iff.1 h
    rw [joinParts_cons]
    exact .cons hpath (ih hrest)

/-- A path starts inside an alternation if its text does not begin like a step that may lead. -/
theorem SpellsSteps.startsInside_iff (hd : d.Legal) {text : List Char} {path : List Step}
    (h : SpellsSteps d text path) :
    StartsInside path ↔ ∀ c ∈ (Text.trimStart text).head?, c ∉ d.leads := by
  cases h with
  | nil hb =>
    rw [trimStart_of_blank hb]
    exact ⟨nofun, nofun⟩
  | @cons blanks token after s steps hb hs _ _ =>
    obtain ⟨c, rest, htoken, hc, hlead, -⟩ := hs.exists_cons hd
    rw [trimStart_token hb htoken hc, StartsInside]
    simp [hlead]

theorem head?_trimStart_append {first rest : List Char} {c : Char} (hc : isBlank c = false)
    {P : Char → Prop} (hP : P c) :
    (∀ x ∈ (Text.trimStart (first ++ c :: rest)).head?, P x) ↔
      ∀ x ∈ (Text.trimStart first).head?, P x := by
  rw [trimStart_append_cons hc]
  cases Text.trimStart first with
  | nil => simp [hP]
  | cons => simp

/-- The text of two alternatives or more, the first of which starts inside, is a body. -/
theorem SpellsAlternatives.exists_body (hd : d.Separable) {body : List Char} {path : List Step}
    {paths : List (List Step)} (h : SpellsAlternatives d body (path :: paths)) (hne : paths ≠ [])
    (hstart : StartsInside path) :
    ∃ parts, Body d body parts ∧ List.Forall₂ (SpellsSteps d) parts (path :: paths) := by
  have hparts := (h.trimStart hd.toLegal).split hd
  refine ⟨_, ⟨?_, ?_, rfl⟩, hparts⟩
  · cases h with
    | last => exact absurd rfl hne
    | cons hfirst _ =>
      have hblank : isBlank d.alternation = false := hd.notBlank .alternation
      rw [head?_trimStart_append hblank (hd.toLegal.not_mem_leads (r := .alternation) (by decide))]
      exact (hfirst.startsInside_iff hd.toLegal).1 hstart
  · intro huncut
    rw [Uncut] at huncut
    rw [huncut] at hparts
    obtain ⟨-, hrest⟩ := List.forall₂_cons.1 hparts
    exact hne (List.forall₂_nil_left_iff.1 hrest)

/-- A body whose parts spell paths spells these alternatives. -/
theorem Body.spellsAlternatives (hd : d.Separable) {body : List Char} {parts : List (List Char)}
    {paths : List (List Step)} (h : Body d body parts)
    (hparts : List.Forall₂ (SpellsSteps d) parts paths) :
    ∃ path rest, paths = path :: rest ∧ rest ≠ [] ∧ StartsInside path ∧
      SpellsAlternatives d (Text.trimStart body) (path :: rest) := by
  rw [h.parts_eq] at hparts
  obtain ⟨path, rest, hpath, hrest, rfl⟩ := List.forall₂_cons_left_iff.1 hparts
  have hjoin := join_split d d.alternation (Text.trimStart body)
  obtain ⟨next, others, hothers⟩ := List.exists_cons_of_ne_nil h.cut
  refine ⟨path, rest, rfl, ?_, ?_, hjoin ▸ spellsAlternatives_of_split hparts⟩
  · intro heq
    subst heq
    exact h.cut (List.forall₂_nil_right_iff.1 hrest)
  · have hblank : isBlank d.alternation = false := hd.notBlank .alternation
    have hleads : d.alternation ∉ d.leads :=
      hd.toLegal.not_mem_leads (r := .alternation) (by decide)
    have hhead := h.not_lead
    rw [joinParts, hothers, List.flatMap_cons, List.cons_append] at hjoin
    rw [← trimStart_trimStart, ← hjoin,
      head?_trimStart_append hblank (P := (· ∉ d.leads)) hleads] at hhead
    exact (hpath.startsInside_iff hd.toLegal).2 hhead

end DocPath
