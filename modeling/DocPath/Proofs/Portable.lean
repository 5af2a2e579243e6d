import DocPath.Proofs.Rereading

/-!
# DocPath.Proofs.Portable

Paths in other delimiters than those that they were written in. A path compiled in the default
delimiters `Fits` others if its keys and the sources of its defaults do not hold what has a meaning
there. Nothing else of a path stands in its text as it is, so one that fits has a spelling for each
of its steps (`Path.Fits.spelled`) and can be read back from its text (`compileOps_of_fits`),
provided the delimiters are `Portable`: validation alone does not tell them from the minus sign and
the quotation marks.
-/

namespace DocPath

open DocPath.Text

variable {d : Delimiters}

/-- Separable delimiters that nothing inside a bracket can be taken for: an index may hold a minus
sign, and a default opens a quotation at every quotation mark. -/
structure Delimiters.Portable (d : Delimiters) : Prop extends Separable d where
  indexClose_ne_minus : d.indexClose ≠ '-'
  isQuote_defaultClose : isQuote d.defaultClose = false
  isQuote_typeDelimiter : isQuote d.typeDelimiter = false

theorem Delimiters.portable_standard : Delimiters.standard.Portable :=
  ⟨separable_standard, by decide, by decide, by decide⟩

/-- What a path holds besides delimiters has no meaning among the delimiters: no name of a key holds
a character that ends keys, and no source of a default the character that closes defaults or a
quotation mark. -/
structure Path.Fits (d : Delimiters) (p : Path) : Prop where
  keys : ∀ name, .key name ∈ p.steps → ∀ c ∈ name.toList, c ∉ d.keyStops
  sources : ∀ v, .default v ∈ p.steps → ∀ c ∈ v.source.toList,
    c ≠ d.defaultClose ∧ isQuote c = false

/-! ### Steps -/

/-- A text without quotation marks is quoted if the closing character does not stand in it. -/
theorem quoted_of_forall {close : Char} {text : List Char} (hclose : isQuote close = false)
    (h : ∀ c ∈ text, c ≠ close ∧ isQuote c = false) : Quoted close none text := by
  induction text with
  | nil => exact .nil hclose
  | cons c text ih =>
    obtain ⟨⟨hne, hquote⟩, htext⟩ := List.forall_mem_cons.1 h
    exact .plain hquote hne (ih htext)

/-- An index with a spelling has only what its text tells. -/
theorem Spelled.plain_eq {d' : Delimiters} {i : Index} (h : Spelled d' (.index i)) :
    i.plain = i := by
  obtain ⟨token, h⟩ := h
  cases h with
  | index hinside _ => cases hinside <;> rfl

/-- A default is spelled in all delimiters that are not quotation marks and do not close it
early. -/
theorem Spelled.default_of_source {d' : Delimiters} (hd : d.Portable) {v : Default}
    (h : Spelled d' (.default v))
    (hsource : ∀ c ∈ v.source.toList, c ≠ d.defaultClose ∧ isQuote c = false) :
    Spelled d (.default v) := by
  obtain ⟨token, h⟩ := h
  cases h with
  | default hinside _ =>
    cases hinside with
    | @mk source _ _ kind value htrim _ _ hvalue =>
      refine ⟨_, .default (.mk htrim (padded_self _) (padded_self _) hvalue)
        (quoted_of_forall hd.isQuote_defaultClose fun c hc => ?_)⟩
      rw [String.toList_ofList] at hsource
      rcases List.mem_append.1 hc with hc | hc
      · exact hsource c hc
      rcases List.mem_cons.1 hc with rfl | hc
      · exact ⟨hd.bracketed .typeDelimiter (.role .defaultClose) (by decide),
          hd.isQuote_typeDelimiter⟩
      · have halnum := isAlphanum_of_mem_name kind c hc
        exact ⟨(hd.ne_of_isAlphanum .defaultClose halnum).symm,
          isQuote_of_class (p := Char.isAlphanum) (by decide) halnum⟩

/-- All steps of a path that fits are spelled. -/
theorem Path.Fits.spelled {d' : Delimiters} {p : Path} (h : p.Fits d) (hd : d.Portable)
    (hspelled : ∀ s ∈ p.steps, Spelled d' s) : ∀ s ∈ p.steps, Spelled d s := by
  intro s hs
  have hspelled := hspelled s hs
  cases s with
  | key name =>
    obtain ⟨token, htoken⟩ := hspelled
    cases htoken with
    | key hname =>
      have hstop := h.keys _ hs
      rw [String.toList_ofList] at hstop
      exact ⟨_, .key ⟨hname.ne_nil, hname.trimmed, hstop⟩⟩
  | index i =>
    rw [← hspelled.plain_eq]
    exact spelled_index hd.toLegal hd.indexClose_ne_minus i
  | default v => exact hspelled.default_of_source hd (h.sources v hs)
  | capture => exact ⟨_, .capture⟩
  | divider => exact ⟨_, .divider⟩
  | anyEntry => exact ⟨_, .anyEntry (padded_self _)⟩

/-! ### Paths -/

/-- A path of the default delimiters is read back from its text in portable delimiters that it
fits. -/
theorem compileOps_of_fits (hd : d.Portable) {text : String} {p : Path}
    (h : Path.ofText? text = .ok p) (hfits : p.Fits d) :
    compileOps d (renderOps d p.ops) = .ok p.ops := by
  have hstandard := Delimiters.separable_standard
  obtain ⟨ops, hops, rfl⟩ := map_eq_ok_iff.1 h
  obtain ⟨hspells, hsingle⟩ := (compileOps_eq_ok_iff hstandard).1 hops
  have hsteps : ∀ s ∈ Path.steps ⟨ops⟩, Spelled .standard s := by
    intro s hs
    obtain ⟨op, hop, hs⟩ := List.mem_flatMap.1 hs
    exact hspells.spelled hstandard.toLegal op hop s hs
  have hspelled := hfits.spelled hd hsteps
  refine (compileOps_eq_ok_iff hd.toSeparable).2 ⟨?_, hsingle⟩
  exact hspells.render_of_spelled hstandard.toLegal hd.toLegal fun op hop s hs =>
    hspelled s (List.mem_flatMap.2 ⟨op, hop, hs⟩)

end DocPath
