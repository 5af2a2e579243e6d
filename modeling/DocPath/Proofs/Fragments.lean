import DocPath.Proofs.Reading

/-!
# DocPath.Proofs.Fragments

What an error of the compiler shows of the text (`compile_error_fragment`). Nearly every error
quotes a piece of the text: a bracket, the rest of a segment or a whole segment. The errors about
an alternative do not: they are found once the alternative is compiled, and name it by the text
that its path is written as in the default delimiters, which need not occur in what was read.

The scan only ever drops characters, so whatever it holds is a piece of what it began with; the
alternatives are pieces as well, and the rest is an induction on the length of the text.
-/

namespace DocPath

open DocPath.Text

variable {d : Delimiters} {e : CompileError}

/-! ### Pieces of a text -/

theorem trim_piece (text : List Char) : trim text <:+: text := by
  obtain ⟨before, after, -, -, htext⟩ := padded_trim text
  exact ⟨before, after, htext.symm⟩

/-- Every part is a piece of the text that the parts make up. -/
theorem infix_joinParts {separator : Char} {parts : List Char × List (List Char)}
    {part : List Char} (h : part ∈ parts.1 :: parts.2) : part <:+: joinParts separator parts := by
  rcases List.mem_cons.1 h with rfl | h
  · exact (List.prefix_append _ _).isInfix
  · have hpart : part <:+: separator :: part := (List.suffix_cons separator part).isInfix
    have hflat : separator :: part <:+: parts.2.flatMap (separator :: ·) :=
      List.infix_of_mem_flatten (List.mem_map_of_mem h)
    exact (hpart.trans hflat).trans (List.suffix_append _ _).isInfix

theorem infix_of_mem_split {separator : Char} {text part : List Char}
    (h : part ∈ (split d separator text).1 :: (split d separator text).2) : part <:+: text := by
  have hjoin : part <:+: joinParts separator (split d separator text) := infix_joinParts h
  rwa [join_split] at hjoin

/-! ### Errors that quote the text -/

namespace CompileError

/-- Whether the error is about an alternative that was compiled already. -/
def blamesAlternative : CompileError → Bool
  | nestedAlternation _ | anyEntryInAlternation _ | unboundedIndexInAlternation _ => true
  | _ => false

/-- Whether the error shows a piece of the text as it stands there. -/
def Quotes (e : CompileError) (text : List Char) : Prop :=
  e.blamesAlternative = false ∧ e.fragment.toList <:+: text

theorem Quotes.of_piece {piece text : List Char} (h : e.Quotes piece) (hpiece : piece <:+: text) :
    e.Quotes text :=
  ⟨h.1, h.2.trans hpiece⟩

end CompileError

/-- The errors of a bracket quote it, if those of its inside name the bracket they are given. -/
theorem quotes_of_readBracket {opening closing : Char} {quoted : Bool} {tail : List Char}
    {read : String → List Char → Except CompileError Step}
    (hread : ∀ fragment inside e, read fragment inside = .error e →
      e.blamesAlternative = false ∧ e.fragment = fragment)
    (h : readBracket opening closing quoted tail read = .error e) : e.Quotes (opening :: tail) := by
  unfold readBracket at h
  split at h
  next =>
    rw [← Except.error.inj h]
    exact ⟨rfl, by simp only [CompileError.fragment, String.toList_ofList, List.infix_rfl]⟩
  next inside after hclosing =>
    split at h
    next e' he' =>
      obtain rfl := Except.error.inj h
      obtain ⟨hblames, hfragment⟩ := hread _ _ _ he'
      refine ⟨hblames, ?_⟩
      rw [hfragment, String.toList_ofList, eq_append_of_closing? hclosing]
      exact ⟨[], after, by simp⟩
    next => cases h

theorem fragment_of_readDefault {fragment : String} {inside : List Char}
    (h : readDefault d fragment inside = .error e) :
    e.blamesAlternative = false ∧ e.fragment = fragment := by
  unfold readDefault at h
  split at h
  next =>
    rw [← Except.error.inj h]
    exact ⟨rfl, rfl⟩
  next =>
    dsimp only at h
    split at h
    next =>
      rw [← Except.error.inj h]
      exact ⟨rfl, rfl⟩
    next =>
      split at h
      next =>
        rw [← Except.error.inj h]
        exact ⟨rfl, rfl⟩
      next => cases h

/-- A turn that fails quotes the segment, of which the text that is left is a piece. -/
theorem quotes_of_turn {segment tail : List Char} {isLast : Bool} {head : Char}
    (hrest : head :: tail <:+: segment) (h : turn d segment isLast head tail = .error e) :
    e.Quotes segment := by
  unfold turn at h
  split at h
  next => cases h
  split at h
  next hindex =>
    subst hindex
    refine (quotes_of_readBracket (fun fragment inside e h => ?_) h).of_piece hrest
    split at h
    next => cases h
    next =>
      rw [← Except.error.inj h]
      exact ⟨rfl, rfl⟩
  split at h
  next hdefault =>
    subst hdefault
    refine (quotes_of_readBracket (fun fragment inside e h => ?_) h).of_piece hrest
    exact fragment_of_readDefault (map_eq_error_iff.1 h)
  split at h
  next hany =>
    subst hany
    refine (quotes_of_readBracket (fun fragment inside e h => ?_) h).of_piece hrest
    split at h
    next => cases h
    next =>
      rw [← Except.error.inj h]
      exact ⟨rfl, rfl⟩
  dsimp only at h
  split at h
  next =>
    split at h
    next => cases h
    next =>
      rw [← Except.error.inj h]
      exact ⟨rfl, by simp only [CompileError.fragment, String.toList_ofList, List.infix_rfl]⟩
  split at h
  next => cases h
  next => cases h

/-! ### What the scan is left with -/

/-- The text that a turn leaves ends the one it was given. -/
theorem suffix_of_turn {segment tail after : List Char} {isLast : Bool} {head : Char} {s : Step}
    (h : turn d segment isLast head tail = .ok (.step s after)) : after <:+ head :: tail := by
  have hbracket : ∀ {opening closing quoted read},
      readBracket opening closing quoted tail read = .ok (.step s after) → after <:+ tail := by
    intro opening closing quoted read h
    obtain ⟨inside, hclosing, -⟩ := readBracket_eq_ok_iff.1 h
    exact ⟨inside ++ [closing], by rw [eq_append_of_closing? hclosing]; simp⟩
  refine List.IsSuffix.trans ?_ (List.suffix_cons head tail)
  unfold turn at h
  split at h
  next =>
    simp only [Except.ok.injEq, Turn.step.injEq] at h
    exact h.2 ▸ List.suffix_rfl
  split at h
  next => exact hbracket h
  split at h
  next => exact hbracket h
  split at h
  next => exact hbracket h
  dsimp only at h
  split at h
  next => split at h <;> cases h
  split at h
  next =>
    simp only [Except.ok.injEq, Turn.step.injEq] at h
    exact h.2 ▸ List.suffix_rfl
  next =>
    simp only [Except.ok.injEq, Turn.step.injEq] at h
    rw [← h.2]
    exact List.dropWhile_suffix _

theorem suffix_of_trimStart {rest tail : List Char} {head : Char}
    (h : trimStart rest = head :: tail) : head :: tail <:+ rest :=
  h ▸ List.dropWhile_suffix _

theorem quotes_of_scanSegment {segment rest : List Char} {isLast : Bool}
    (hrest : rest <:+: segment) (h : scanSegment d segment isLast rest = .error e) :
    e.Quotes segment := by
  fun_induction scanSegment d segment isLast rest with
  | case1 => cases h
  | case2 rest head tail htrim e' hturn =>
    obtain rfl := Except.error.inj h
    exact quotes_of_turn ((suffix_of_trimStart htrim).isInfix.trans hrest) hturn
  | case3 => cases h
  | case4 rest head tail htrim s after hturn e' _ ih =>
    obtain rfl := Except.error.inj h
    have hafter := (suffix_of_turn hturn).trans (suffix_of_trimStart htrim)
    exact ih (hafter.isInfix.trans hrest) ‹_›
  | case5 => cases h

theorem infix_of_scanSegment {segment rest part : List Char} {isLast : Bool} {o : Outline}
    (h : scanSegment d segment isLast rest = .ok o) (hpart : part ∈ o.alternatives) :
    part <:+: rest := by
  fun_induction scanSegment d segment isLast rest generalizing o with
  | case1 =>
    rw [← Except.ok.inj h] at hpart
    cases hpart
  | case2 => cases h
  | case3 rest head tail htrim parts hturn =>
    obtain rfl := Except.ok.inj h
    obtain ⟨-, -, -, rfl⟩ := turn_alternation_iff.1 hturn
    exact (infix_of_mem_split hpart).trans (suffix_of_trimStart htrim).isInfix
  | case4 => cases h
  | case5 rest head tail htrim s after hturn o' ho' ih =>
    obtain rfl := Except.ok.inj h
    have hafter := (suffix_of_turn hturn).trans (suffix_of_trimStart htrim)
    exact (ih ho' hpart).trans hafter.isInfix

/-- A segment is read without the blanks around it, and its errors quote it. -/
theorem quotes_of_scanSegment_trim {segment : List Char} {isLast : Bool}
    (h : scanSegment d (trim segment) isLast (trim segment) = .error e) : e.Quotes segment :=
  (quotes_of_scanSegment List.infix_rfl h).of_piece (trim_piece segment)

theorem quotes_of_scanSegments {segment : List Char} {others : List (List Char)}
    (h : scanSegments d segment others = .error e) : ∃ s ∈ segment :: others, e.Quotes s := by
  induction others generalizing segment with
  | nil => exact ⟨segment, List.mem_cons_self, quotes_of_scanSegment_trim h⟩
  | cons next others ih =>
    unfold scanSegments at h
    split at h
    next e' he' =>
      obtain rfl := Except.error.inj h
      exact ⟨segment, List.mem_cons_self, quotes_of_scanSegment_trim he'⟩
    next =>
      split at h
      next e' he' =>
        obtain rfl := Except.error.inj h
        obtain ⟨s, hs, hquotes⟩ := ih he'
        exact ⟨s, List.mem_cons_of_mem segment hs, hquotes⟩
      next => cases h

theorem infix_of_scanSegments {segment part : List Char} {others : List (List Char)} {o : Outline}
    (h : scanSegments d segment others = .ok o) (hpart : part ∈ o.alternatives) :
    ∃ s ∈ segment :: others, part <:+: s := by
  induction others generalizing segment o with
  | nil =>
    exact ⟨segment, List.mem_cons_self, (infix_of_scanSegment h hpart).trans (trim_piece segment)⟩
  | cons next others ih =>
    unfold scanSegments at h
    split at h
    next => cases h
    next =>
      split at h
      next => cases h
      next rest hrest =>
        obtain rfl := Except.ok.inj h
        obtain ⟨s, hs, hwithin⟩ := ih hrest hpart
        exact ⟨s, List.mem_cons_of_mem segment hs, hwithin⟩

/-- What is wrong before any alternative is compiled quotes the text. -/
theorem quotes_of_outline {text : List Char} (h : outline d text = .error e) : e.Quotes text := by
  obtain ⟨segment, hsegment, hquotes⟩ := quotes_of_scanSegments h
  exact hquotes.of_piece (infix_of_mem_split hsegment)

/-- The texts of alternatives are pieces of the text of the whole path. -/
theorem infix_of_mem_alternatives {text part : List Char} {o : Outline}
    (h : outline d text = .ok o) (hpart : part ∈ o.alternatives) : part <:+: text := by
  obtain ⟨segment, hsegment, hwithin⟩ := infix_of_scanSegments h hpart
  exact hwithin.trans (infix_of_mem_split hsegment)

/-! ### Errors about an alternative -/

/-- Whether the error blames an alternative that a piece of the text was compiled to. -/
def CompileError.BlamesPiece (d : Delimiters) (e : CompileError) (text : List Char) : Prop :=
  ∃ piece p, piece <:+: text ∧ compileOps d piece = .ok p.ops ∧ Path.toSteps? p = .error e

theorem CompileError.BlamesPiece.of_piece {piece text : List Char} (h : e.BlamesPiece d piece)
    (hpiece : piece <:+: text) : e.BlamesPiece d text := by
  obtain ⟨inner, p, hinner, hcompile, hsteps⟩ := h
  exact ⟨inner, p, hinner.trans hpiece, hcompile, hsteps⟩

/-- An alternative without exactly one value is named by its text in the default delimiters. -/
theorem blamesAlternative_of_toSteps? {p : Path} (h : p.toSteps? = .error e) :
    e.blamesAlternative = true ∧ e.fragment = p.text := by
  obtain ⟨op, -, hop⟩ := exists_of_mapM_eq_error h
  cases op with
  | alternatives =>
    rw [← Except.error.inj hop]
    exact ⟨rfl, rfl⟩
  | step s =>
    cases s with
    | anyEntry =>
      rw [← Except.error.inj hop]
      exact ⟨rfl, rfl⟩
    | index i =>
      rw [Op.toStep?] at hop
      split at hop
      next => cases hop
      next =>
        rw [← Except.error.inj hop]
        exact ⟨rfl, rfl⟩
    | _ => cases hop

/-- An alternation that cannot be built has a part that does not compile, or one that compiles to
a path which is no alternative. -/
theorem exists_of_alternation?_eq_error {parts : List (List Char)}
    (h : alternation? d parts = .error e) : ∃ part ∈ parts, compileOps d (trim part) = .error e ∨
      ∃ p : Path, compileOps d (trim part) = .ok p.ops ∧ p.toSteps? = .error e := by
  rw [alternation?, bind_eq_error_iff] at h
  rcases h with h | ⟨ops, hops, h⟩
  · obtain ⟨part, hpart, h⟩ := exists_of_mapM_eq_error h
    exact ⟨part, hpart, Or.inl h⟩
  · obtain ⟨p, hp, hsteps⟩ := exists_of_mapM_eq_error (map_eq_error_iff.1 h)
    obtain ⟨ops', hops', rfl⟩ := List.mem_map.1 hp
    have hparts := (List.forall₂_and_left _ _).2 ⟨fun part hpart => hpart, mapM_eq_ok_iff.1 hops⟩
    obtain ⟨part, hpart, hcompile⟩ := exists_of_forall₂ hparts hops'
    exact ⟨part, hpart, Or.inr ⟨⟨ops'⟩, hcompile, hsteps⟩⟩

/-- By induction on the length of the text: the parts of an alternation are shorter than it. -/
theorem quotes_or_blamesPiece {text : List Char} (h : compileOps d text = .error e) :
    e.Quotes text ∨ e.BlamesPiece d text := by
  induction hlen : text.length using Nat.strong_induction_on generalizing text with
  | _ n ih =>
    subst hlen
    rw [compileOps_eq, bind_eq_error_iff] at h
    rcases h with h | ⟨o, ho, h⟩
    · exact Or.inl (quotes_of_outline h)
    · rw [Outline.toOps?] at h
      split at h
      next => cases h
      next =>
        obtain ⟨part, hpart, h⟩ := exists_of_alternation?_eq_error (map_eq_error_iff.1 h)
        have hwithin : trim part <:+: text :=
          (trim_piece part).trans (infix_of_mem_alternatives ho hpart)
        rcases h with h | ⟨p, hcompile, hsteps⟩
        · have hlt : (trim part).length < text.length :=
            Nat.lt_of_le_of_lt (length_trim_le part) (length_lt_of_mem_alternatives ho hpart)
          exact (ih _ hlt h rfl).imp (·.of_piece hwithin) (·.of_piece hwithin)
        · exact Or.inr ⟨trim part, p, hwithin, hcompile, hsteps⟩

/-! ### The fragment of an error -/

/-- An error quotes a piece of the text, unless it blames an alternative. Then a piece of the text
is compiled to the alternative, and the error shows the text that this is written as in the
default delimiters. -/
theorem compile_error_fragment (c : Compiler) {text : String} {e : CompileError}
    (h : c.compile text = .error e) :
    (e.blamesAlternative = false ∧ e.fragment.toList <:+: text.toList) ∨
      (e.blamesAlternative = true ∧ ∃ (piece : String) (p : Path), piece.toList <:+: text.toList ∧
        c.compile piece = .ok p ∧ p.toSteps? = .error e ∧ e.fragment = p.text) := by
  rcases quotes_or_blamesPiece (map_eq_error_iff.1 h) with h | ⟨piece, p, hpiece, hcompile, hsteps⟩
  · exact Or.inl h
  · obtain ⟨hblames, hfragment⟩ := blamesAlternative_of_toSteps? hsteps
    refine Or.inr ⟨hblames, .ofList piece, p, ?_, ?_, hsteps, hfragment⟩
    · rwa [String.toList_ofList]
    · rw [Compiler.compile, String.toList_ofList, hcompile]
      rfl

/-- The divider of an alternative is written as one between segments, so the error about an index in
the text quotes a piece that does not occur there. -/
theorem compile_error_fragment_divider :
    let e : CompileError := .unboundedIndexInAlternation "a.[*]"
    Path.ofText? "a,[*]|b" = .error e ∧ ¬ e.fragment.toList <:+: "a,[*]|b".toList ∧
      ∃ (piece : String) (p : Path), piece.toList <:+: "a,[*]|b".toList ∧
        Path.ofText? piece = .ok p ∧ p.toSteps? = .error e ∧ e.fragment = p.text := by
  intro e
  have hfirst : KeyName .standard ['a'] :=
    ⟨List.cons_ne_nil _ _, by decide, List.forall_mem_singleton.2 (by decide)⟩
  have hsecond : KeyName .standard ['b'] :=
    ⟨List.cons_ne_nil _ _, by decide, List.forall_mem_singleton.2 (by decide)⟩
  have hindex : SpellsSteps .standard "[*]".toList [.index (.one .wildcard)] :=
    .cons blank_nil (.index (.one .wildcard (padded_self _)) (by decide)) nofun (.nil blank_nil)
  have hrest : SpellsSteps .standard ",[*]".toList [.divider, .index (.one .wildcard)] :=
    .cons blank_nil .divider nofun hindex
  have hends : EndsKey .standard ",[*]".toList := by
    intro c rest h
    obtain rfl : ',' = c := (List.cons.inj h).1
    decide
  have hbody : SpellsAlternatives .standard "a,[*]|b".toList
      [[.key "a", .divider, .index (.one .wildcard)], [.key "b"]] :=
    .cons (.cons blank_nil (.key hfirst) (fun _ => hends) hrest)
      (.last (.cons blank_nil (.key hsecond) (fun _ => nofun) (.nil blank_nil)))
  have hlead : SpellsLead .standard "a,[*]|b".toList "a,[*]|b".toList [] := .nil blank_nil
  have hstart : StartsInside [.key "a", .divider, .index (.one .wildcard)] := by
    simp [StartsInside, Step.mayLead]
  have hpaths : Op.ofPaths? ([[.key "a", .divider, .index (.one .wildcard)], [.key "b"]].map
      Path.ofSteps) = .error e := rfl
  have hops : compileOps .standard "a,[*]|b".toList = .error e := by
    rw [compileOps_alternation Delimiters.separable_standard hlead hbody
      (List.cons_ne_nil _ _) hstart, hpaths]
    rfl
  have hcompile : Path.ofText? "a,[*]|b" = .error e := map_eq_error_iff.2 hops
  have hnot : ¬ e.fragment.toList <:+: "a,[*]|b".toList := by
    intro hwithin
    have hdot : '.' ∈ "a.[*]".toList := by decide
    exact absurd (hwithin.subset hdot) (by decide)
  refine ⟨hcompile, hnot, ?_⟩
  rcases compile_error_fragment .standard hcompile with h | h
  · exact absurd h.2 hnot
  · exact h.2

end DocPath
