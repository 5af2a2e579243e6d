import DocPath.Proofs.Turns

/-!
# DocPath.Proofs.Padding

Blanks around texts. Blanks before or after the text of steps, or of alternatives, change nothing
about what it spells: they can be added (`SpellsSteps.append_blanks`) and dropped
(`SpellsSteps.of_append_blanks`). No token ends with a blank, so the blanks at the end of a text
stand after its last token.
-/

namespace DocPath

open DocPath.Text

variable {d : Delimiters}

/-! ### Blanks before a text -/

theorem SpellsSteps.blanks_append {blanks text : List Char} {steps : List Step}
    (hb : Blank blanks) (h : SpellsSteps d text steps) : SpellsSteps d (blanks ++ text) steps := by
  cases h with
  | nil htext => exact .nil (hb.append htext)
  | cons hb' hs hkey hrest =>
    rw [← List.append_assoc, ← List.append_assoc]
    exact .cons (hb.append hb') hs hkey hrest

theorem SpellsSteps.trimStart {text : List Char} {steps : List Step}
    (h : SpellsSteps d text steps) (hd : d.Legal) : SpellsSteps d (trimStart text) steps := by
  cases h with
  | nil hb =>
    rw [trimStart_of_blank hb]
    exact .nil blank_nil
  | @cons blanks token after s steps hb hs hkey hafter =>
    obtain ⟨c, rest, htoken, hc, -⟩ := hs.exists_cons hd
    have htrim : Text.trimStart (blanks ++ token ++ after) = [] ++ token ++ after := by
      rw [List.append_assoc, trimStart_append hb, htoken, List.cons_append, trimStart_cons hc]
      rfl
    rw [htrim]
    exact .cons blank_nil hs hkey hafter

theorem SpellsAlternatives.trimStart {text : List Char} {paths : List (List Step)}
    (h : SpellsAlternatives d text paths) (hd : d.Legal) :
    SpellsAlternatives d (trimStart text) paths := by
  cases h with
  | last hsteps => exact .last (hsteps.trimStart hd)
  | cons hfirst hrest =>
    have halternation : isBlank d.alternation = false := hd.notBlank .alternation
    rw [trimStart_append_cons halternation]
    exact .cons (hfirst.trimStart hd) hrest

theorem SpellsLead.blanks_append {blanks body text : List Char} {steps : List Step}
    (hb : Blank blanks) (h : SpellsLead d body text steps) :
    SpellsLead d body (blanks ++ text) steps := by
  cases h with
  | nil htext =>
    rw [← List.append_assoc]
    exact .nil (hb.append htext)
  | cons hb' hs hlead hrest =>
    rw [← List.append_assoc, ← List.append_assoc]
    exact .cons (hb.append hb') hs hlead hrest

/-! ### Blanks after a text -/

/-- Blanks at the end change nothing about where a key ends. -/
theorem endsKey_append_blanks_iff {after blanks : List Char} (hb : Blank blanks) :
    EndsKey d (after ++ blanks) ↔ EndsKey d after := by
  cases hafter : trimStart after with
  | nil =>
    have hblank := blank_of_trimStart hafter
    rw [EndsKey, EndsKey, hafter, trimStart_of_blank (hblank.append hb)]
  | cons c rest =>
    have htrim : trimStart (after ++ blanks) = c :: (rest ++ blanks) := by
      rw [← takeWhile_append_trimStart after, List.append_assoc,
        trimStart_append (blank_takeWhile after), hafter, List.cons_append,
        trimStart_cons (isBlank_of_trimStart hafter)]
    rw [EndsKey, EndsKey, hafter, htrim]
    constructor
    · intro h c' rest' heq
      obtain ⟨rfl, -⟩ := List.cons.inj heq
      exact h c _ rfl
    · intro h c' rest' heq
      obtain ⟨rfl, -⟩ := List.cons.inj heq
      exact h c _ rfl

theorem SpellsSteps.append_blanks {text blanks : List Char} {steps : List Step}
    (h : SpellsSteps d text steps) (hb : Blank blanks) : SpellsSteps d (text ++ blanks) steps := by
  induction h with
  | nil htext => exact .nil (htext.append hb)
  | cons hb' hs hkey _ ih =>
    rw [List.append_assoc]
    exact .cons hb' hs (fun h => (endsKey_append_blanks_iff hb).2 (hkey h)) ih

theorem SpellsAlternatives.append_blanks {text blanks : List Char} {paths : List (List Step)}
    (h : SpellsAlternatives d text paths) (hb : Blank blanks) :
    SpellsAlternatives d (text ++ blanks) paths := by
  induction h with
  | last hsteps => exact .last (hsteps.append_blanks hb)
  | cons hfirst _ ih =>
    rw [List.append_assoc, List.cons_append]
    exact .cons hfirst ih

/-- The blanks before a body can stand before it as well. -/
theorem SpellsLead.trimStart {body text : List Char} {steps : List Step}
    (h : SpellsLead d body text steps) : SpellsLead d (trimStart body) text steps := by
  induction h with
  | @nil blanks hb =>
    rw [← takeWhile_append_trimStart body, ← List.append_assoc, takeWhile_append_trimStart]
    exact .nil (hb.append (blank_takeWhile body))
  | cons hb hs hlead _ ih => exact .cons hb hs hlead ih

theorem SpellsLead.append {body text : List Char} {steps : List Step}
    (h : SpellsLead d body text steps) (more : List Char) :
    SpellsLead d (body ++ more) (text ++ more) steps := by
  induction h with
  | nil hb =>
    rw [List.append_assoc]
    exact .nil hb
  | cons hb hs hlead _ ih =>
    rw [List.append_assoc]
    exact .cons hb hs hlead ih

/-- A token does not end with a blank. -/
theorem SpellsStep.exists_concat (hd : d.Legal) {token : List Char} {s : Step}
    (h : SpellsStep d token s) : ∃ init c, token = init ++ [c] ∧ isBlank c = false := by
  cases h with
  | capture => exact ⟨[], _, rfl, hd.notBlank .contextMarker⟩
  | index => exact ⟨_, _, rfl, hd.notBlank .indexClose⟩
  | default => exact ⟨_, _, rfl, hd.notBlank .defaultClose⟩
  | anyEntry => exact ⟨_, _, rfl, hd.notBlank .anyEntryClose⟩
  | divider => exact ⟨[], _, rfl, hd.notBlank .continuation⟩
  | key hname =>
    obtain ⟨init, c, htoken⟩ := (List.eq_nil_or_concat token).resolve_left hname.ne_nil
    rw [List.concat_eq_append] at htoken
    subst htoken
    exact ⟨init, c, rfl, isBlank_of_trim_concat hname.trimmed⟩

/-- Blanks at the end of a text can be dropped. -/
theorem SpellsSteps.of_append_blanks (hd : d.Legal) {text core blanks : List Char}
    {steps : List Step} (h : SpellsSteps d text steps) (hb : Blank blanks)
    (htext : text = core ++ blanks) : SpellsSteps d core steps := by
  induction h generalizing core with
  | nil hblank =>
    refine .nil fun c hc => hblank c ?_
    rw [htext]
    exact List.mem_append_left _ hc
  | @cons before token after s steps hbefore hs hkey _ ih =>
    obtain ⟨init, c, rfl, hc⟩ := hs.exists_concat hd
    rw [List.append_assoc, List.append_assoc, List.singleton_append, ← List.append_assoc] at htext
    obtain ⟨mid, rfl, rfl⟩ := exists_of_append_blank hc hb htext
    have hsplit : before ++ init ++ c :: mid = before ++ (init ++ [c]) ++ mid := by simp
    rw [hsplit]
    exact .cons hbefore hs (fun h => (endsKey_append_blanks_iff hb).1 (hkey h)) (ih rfl)

theorem SpellsAlternatives.of_append_blanks (hd : d.Legal) {text core blanks : List Char}
    {paths : List (List Step)} (h : SpellsAlternatives d text paths) (hb : Blank blanks)
    (htext : text = core ++ blanks) : SpellsAlternatives d core paths := by
  induction h generalizing core with
  | last hsteps => exact .last (hsteps.of_append_blanks hd hb htext)
  | cons hfirst _ ih =>
    obtain ⟨mid, hrest, rfl⟩ := exists_of_append_blank (hd.notBlank .alternation) hb htext
    exact .cons hfirst (ih hrest)

/-- The blanks after a text with alternatives are the blanks after its body. -/
theorem SpellsLead.of_append_blanks (hd : d.Legal) {body text core blanks : List Char}
    {steps : List Step} {first : List Char} {c : Char} {rest : List Char}
    (h : SpellsLead d body text steps) (hbody : body = first ++ c :: rest)
    (hc : isBlank c = false) (hb : Blank blanks) (htext : text = core ++ blanks) :
    ∃ body', body = body' ++ blanks ∧ SpellsLead d body' core steps := by
  induction h generalizing core with
  | @nil before hbefore =>
    rw [hbody, ← List.append_assoc] at htext
    obtain ⟨mid, rfl, rfl⟩ := exists_of_append_blank hc hb htext
    refine ⟨first ++ c :: mid, by simp [hbody], ?_⟩
    rw [List.append_assoc]
    exact .nil hbefore
  | @cons before token after s steps hbefore hs hlead _ ih =>
    obtain ⟨init, c', rfl, hc'⟩ := hs.exists_concat hd
    rw [List.append_assoc, List.append_assoc, List.singleton_append, ← List.append_assoc] at htext
    obtain ⟨mid, rfl, rfl⟩ := exists_of_append_blank hc' hb htext
    obtain ⟨body', hbody', hrest⟩ := ih rfl
    have hsplit : before ++ init ++ c' :: mid = before ++ (init ++ [c']) ++ mid := by simp
    rw [hsplit]
    exact ⟨body', hbody', .cons hbefore hs hlead hrest⟩

/-- Trimming a text changes nothing about the steps that it spells. -/
theorem spellsSteps_trim_iff (hd : d.Legal) {text : List Char} {steps : List Step} :
    SpellsSteps d (trim text) steps ↔ SpellsSteps d text steps := by
  obtain ⟨before, after, hbefore, hafter, htext⟩ := padded_trim text
  constructor
  · intro h
    rw [htext]
    exact (h.blanks_append hbefore).append_blanks hafter
  · intro h
    have hcore := (h.of_append_blanks hd hafter htext).trimStart hd
    rw [trimStart_append hbefore] at hcore
    have hstart := hcore.blanks_append (blank_takeWhile (trim text))
    rw [takeWhile_append_trimStart] at hstart
    exact hstart

end DocPath
