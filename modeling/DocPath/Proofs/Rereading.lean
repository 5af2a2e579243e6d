import DocPath.Proofs.Building
import DocPath.Proofs.Coercions
import DocPath.Proofs.Spacing

/-!
# DocPath.Proofs.Rereading

What the text of steps and an alternation is read as (`reread`). An alternation of one path leaves
no mark in the text, so its steps are read as the steps that follow, and one of no path leaves no
text at all. Of two paths or more, the first one does not begin where it was put: it takes in the
keys of the segment in front of it and all between them (`takenFrom`), and what it begins with may
be read as steps in front of it.

The text spells what it is read as (`spells_reread`), so it compiles exactly if the steps that are
taken in give one value each (`ofText?_eq_ok_iff_reread`).
-/

namespace DocPath

open DocPath.Text

variable {d : Delimiters}

/-! ### What a path takes in -/

/-- Steps in two parts: those that stay in front of an alternation, and those that its first path
takes in, from the first key on that has no divider after it. -/
def takenFrom : List Step → List Step × List Step
  | [] => ([], [])
  | s :: rest =>
    if s.isKey && !rest.any Step.isDivider then ([], s :: rest)
    else (s :: (takenFrom rest).1, (takenFrom rest).2)

theorem takenFrom_append (steps : List Step) :
    (takenFrom steps).1 ++ (takenFrom steps).2 = steps := by
  fun_induction takenFrom steps with
  | case1 => rfl
  | case2 => rfl
  | case3 s rest _ ih => rw [List.cons_append, ih]

/-- Nothing that is taken in is a boundary of segments. -/
theorem isDivider_of_mem_taken (steps : List Step) :
    ∀ s ∈ (takenFrom steps).2, s.isDivider = false := by
  fun_induction takenFrom steps with
  | case1 => exact nofun
  | case2 s rest hkey =>
    rw [Bool.and_eq_true, Bool.not_eq_true', List.any_eq_false] at hkey
    refine List.forall_mem_cons.2 ⟨?_, fun t ht => by simpa using hkey.2 t ht⟩
    cases s with
    | divider => simp [Step.isKey] at hkey
    | _ => rfl
  | case3 s rest _ ih => exact ih

theorem isKey_of_mem_head?_taken (steps : List Step) :
    ∀ s ∈ (takenFrom steps).2.head?, s.isKey = true := by
  fun_induction takenFrom steps with
  | case1 => exact nofun
  | case2 s rest hkey =>
    intro t ht
    obtain rfl := Option.mem_some_iff.1 ht
    exact (Bool.and_eq_true _ _ ▸ hkey).1
  | case3 s rest _ ih => exact ih

/-- What stays in front has a divider after each key. -/
theorem settled_takenFrom (steps : List Step) : Settled (takenFrom steps).1 := by
  fun_induction takenFrom steps with
  | case1 => trivial
  | case2 => trivial
  | case3 s rest hstays ih =>
    refine ⟨fun hkey => ?_, ih⟩
    have hany : rest.any Step.isDivider = true := by simpa [hkey] using hstays
    rw [← takenFrom_append rest, List.any_append, Bool.or_eq_true] at hany
    refine hany.resolve_right ?_
    rw [Bool.not_eq_true, List.any_eq_false]
    exact fun t ht => by simp [isDivider_of_mem_taken rest t ht]

/-! ### What an alternation is read as -/

/-- The operations that the text of steps and an alternation after them is read as. -/
def reread (steps : List Step) : List (List Step) → List Op
  | [] => (spaced true steps).map .step
  | [path] => (spaced true steps ++ spaced false path).map .step
  | path :: paths =>
    let first := (takenFrom (spaced true steps)).2 ++ spaced false path
    ((takenFrom (spaced true steps)).1 ++ first.takeWhile Step.mayLead).map .step ++
      [.alternatives (first.dropWhile Step.mayLead :: paths.map (spaced false))]

theorem legible_append {steps steps' : List Step} : Legible d (steps ++ steps') ↔
    Legible d steps ∧ Legible d steps' ∧
      ∀ s ∈ steps.getLast?, ∀ t ∈ steps'.head?, s.isKey = true → t.isKey = false := by
  constructor
  · intro h
    obtain ⟨hspelled, hapart⟩ := h
    obtain ⟨hsteps, hsteps'⟩ := List.forall_mem_append.1 hspelled
    obtain ⟨hchain, hchain', hjoint⟩ := List.isChain_append.1 hapart
    exact ⟨⟨hsteps, hchain⟩, ⟨hsteps', hchain'⟩, hjoint⟩
  · intro h
    obtain ⟨⟨hsteps, hchain⟩, ⟨hsteps', hchain'⟩, hjoint⟩ := h
    exact ⟨List.forall_mem_append.2 ⟨hsteps, hsteps'⟩,
      List.isChain_append.2 ⟨hchain, hchain', hjoint⟩⟩

/-- Without boundaries of segments, it does not matter what divides them. -/
theorem flatMap_render_eq {steps : List Step} (h : ∀ s ∈ steps, s.isDivider = false)
    (divider divider' : Char) :
    steps.flatMap (·.render d divider) = steps.flatMap (·.render d divider') := by
  refine List.flatMap_congr fun s hs => ?_
  cases s with
  | divider => exact absurd (h _ hs) nofun
  | _ => rfl

/-- Steps with no alternation after them are read as the spaced ones. -/
theorem spells_spaced (hd : d.Legal) {steps : List Step} (h : ∀ s ∈ steps, Spelled d s.plain) :
    Spells d (renderOps d (steps.map .step)) ((spaced false steps).map .step) := by
  have hrender : renderOps d (steps.map .step) =
      (spaced false steps).flatMap (·.render d d.segmentDivider) := by
    simpa [renderOps] using renderOps_eq_spaced steps []
  have hnil : Spells d [] [] := .steps (.nil blank_nil)
  have hspells := Spells.append_front hd (legible_spaced false h) (Or.inl ⟨rfl, by simp⟩) hnil
  rw [hrender]
  simpa using hspells

/-- The alternatives are read as the spaced ones. -/
theorem spellsAlternatives_spaced (hd : d.Legal) {paths : List (List Step)} (hne : paths ≠ [])
    (h : ∀ path ∈ paths, ∀ s ∈ path, Spelled d s.plain) :
    SpellsAlternatives d (renderAlternatives d paths) (paths.map (spaced false)) := by
  induction paths with
  | nil => exact absurd rfl hne
  | cons path paths ih =>
    obtain ⟨hpath, hpaths⟩ := List.forall_mem_cons.1 h
    have hfirst := (legible_spaced false hpath).spells hd
    rw [← renderSteps_eq_spaced] at hfirst
    cases paths with
    | nil => exact .last hfirst
    | cons path' paths => exact .cons hfirst (ih (List.cons_ne_nil _ _) hpaths)

/-- An alternation begins where its first path has a step that cannot stand in front of it. -/
theorem Legible.spells_alternation (hd : d.Legal) {first : List Step} {text : List Char}
    {paths : List (List Step)} (h : Legible d first) (hpaths : SpellsAlternatives d text paths) :
    Spells d (first.flatMap (·.render d d.continuation) ++ d.alternation :: text)
      ((first.takeWhile Step.mayLead).map .step ++
        [.alternatives (first.dropWhile Step.mayLead :: paths)]) := by
  have hsplit := List.takeWhile_append_dropWhile (p := Step.mayLead) (l := first)
  have hmay : ∀ s ∈ first.takeWhile Step.mayLead, s.mayLead = true :=
    fun s hs => List.mem_takeWhile_imp hs
  have hundivided : ∀ s ∈ first.takeWhile Step.mayLead, s.isDivider = false := by
    intro s hs
    have hlead := hmay s hs
    cases s <;> first | rfl | simp [Step.mayLead] at hlead
  obtain ⟨hlead, hbody, -⟩ := legible_append.1 (hsplit.symm ▸ h)
  have hne : paths ≠ [] := by
    intro heq
    subst heq
    cases hpaths
  have hinside : StartsInside (first.dropWhile Step.mayLead) := by
    intro s hs
    have hnot := List.head?_dropWhile_not Step.mayLead first
    rwa [hs] at hnot
  have hrest : Spells d ((first.dropWhile Step.mayLead).flatMap (·.render d d.continuation) ++
      d.alternation :: text) [.alternatives (first.dropWhile Step.mayLead :: paths)] :=
    .alternation (.nil blank_nil) (.cons (hbody.spells hd) hpaths) hne hinside
  have hspells := Spells.append_front hd hlead (Or.inr (settled_of_mayLead hmay).1) hrest
  rwa [flatMap_render_eq hundivided d.segmentDivider d.continuation, ← List.append_assoc,
    ← List.flatMap_append, hsplit] at hspells

/-- What is taken in stands in front of the first path as if it were written there. -/
theorem legible_taken {steps path : List Step} (hsteps : ∀ s ∈ steps, Spelled d s.plain)
    (hpath : ∀ s ∈ path, Spelled d s.plain) :
    Legible d (takenFrom (spaced true steps)).1 ∧
      Legible d ((takenFrom (spaced true steps)).2 ++ spaced false path) := by
  have hsplit := takenFrom_append (spaced true steps)
  have hfront := legible_spaced true hsteps
  rw [← hsplit] at hfront
  obtain ⟨hstay, htaken, -⟩ := legible_append.1 hfront
  refine ⟨hstay, legible_append.2 ⟨htaken, legible_spaced false hpath, ?_⟩⟩
  intro s hs t ht hkey
  have hlast : (spaced true steps).getLast? = some s := by
    rw [← hsplit, List.getLast?_append, Option.mem_def.1 hs, Option.some_or]
  rw [getLast?_spaced hlast] at hkey
  simp at hkey

/-- The text of steps and an alternation spells what it is read as. -/
theorem spells_reread (hd : d.Legal) {steps : List Step} {paths : List (List Step)}
    (hsteps : ∀ s ∈ steps, Spelled d s.plain)
    (hpaths : ∀ path ∈ paths, ∀ s ∈ path, Spelled d s.plain) :
    Spells d (renderOps d (steps.map .step ++ [.alternatives paths])) (reread steps paths) := by
  have hfront := legible_spaced true hsteps
  have hrender : renderOps d (steps.map .step ++ [.alternatives paths]) =
      (spaced true steps).flatMap (·.render d d.segmentDivider) ++ renderAlternatives d paths :=
    renderOps_eq_spaced steps [.alternatives paths]
  rw [hrender]
  -- The text of an alternation depends on how many paths it has.
  match paths, hpaths with
  | [], _ =>
    have hnil : Spells d [] [] := .steps (.nil blank_nil)
    have hspells := Spells.append_front hd hfront (Or.inl ⟨rfl, by simp⟩) hnil
    rw [renderAlternatives, reread]
    rwa [List.append_nil (List.map Op.step _)] at hspells
  | [path], hpaths =>
    have hpath := (legible_spaced false (hpaths path List.mem_cons_self)).spells hd
    have hahead : alternationAhead ((spaced false path).map .step ++ []) = false :=
      alternationAhead_append (Or.inr rfl)
    rw [List.append_nil] at hahead
    rw [renderAlternatives, renderSteps_eq_spaced, reread, List.map_append]
    refine .append_front hd hfront (Or.inl ⟨hahead, fun s hs hkey => ?_⟩) (.steps hpath)
    rw [getLast?_spaced hs] at hkey
    simp at hkey
  | path :: path' :: rest, hpaths =>
    obtain ⟨hpath, hrest⟩ := List.forall_mem_cons.1 hpaths
    obtain ⟨hstay, hfirst⟩ := legible_taken hsteps hpath
    have hrest := spellsAlternatives_spaced hd (List.cons_ne_nil path' rest) hrest
    have hspells := Spells.append_front hd hstay (Or.inr (settled_takenFrom _))
      (hfirst.spells_alternation hd hrest)
    have htaken : (takenFrom (spaced true steps)).2.flatMap (·.render d d.continuation) =
        (takenFrom (spaced true steps)).2.flatMap (·.render d d.segmentDivider) :=
      flatMap_render_eq (isDivider_of_mem_taken _) _ _
    rw [List.flatMap_append, ← renderSteps_eq_spaced, htaken, List.append_assoc,
      ← List.append_assoc, ← List.flatMap_append, takenFrom_append] at hspells
    rw [reread, List.map_append, List.append_assoc]
    · exact hspells
    · exact List.cons_ne_nil path' rest

/-! ### Whether the text compiles -/

theorem single_spaced {followed : Bool} {steps : List Step} (h : ∀ s ∈ steps, s.isSingle = true) :
    ∀ s ∈ spaced followed steps, s.isSingle = true := by
  intro s hs
  obtain rfl | ⟨t, ht, rfl⟩ := mem_spaced hs
  · rfl
  · rw [t.isSingle_plain]
    exact h t ht

/-- If anything is taken in, it is what the alternation begins with. -/
theorem span_taken {steps : List Step} (h : (takenFrom steps).2 ≠ []) (rest : List Step) :
    ((takenFrom steps).2 ++ rest).takeWhile Step.mayLead = [] ∧
      ((takenFrom steps).2 ++ rest).dropWhile Step.mayLead = (takenFrom steps).2 ++ rest := by
  obtain ⟨s, taken, hs⟩ := List.exists_cons_of_ne_nil h
  have hkey : s.isKey = true := isKey_of_mem_head?_taken steps s (by rw [hs]; rfl)
  have hinside : s.mayLead = false := by
    cases s <;> first | rfl | simp [Step.isKey] at hkey
  rw [hs]
  simp [hinside]

/-- What an alternation of two paths or more is read as gives one value for each path if it does so
for the steps that are taken in. -/
theorem single_reread_iff {steps path path' : List Step} {rest : List (List Step)}
    (h : Op.Single (.alternatives (path :: path' :: rest))) :
    (∀ op ∈ reread steps (path :: path' :: rest), op.Single) ↔
      ∀ s ∈ (takenFrom (spaced true steps)).2, s.isSingle = true := by
  obtain ⟨hpath, hrest⟩ := List.forall_mem_cons.1 h
  rw [reread]
  · constructor
    · intro hsingle s hs
      have hfirst := hsingle _ (List.mem_append_right _ List.mem_cons_self) _ List.mem_cons_self
      have hspan := span_taken (List.ne_nil_of_mem hs) (spaced false path)
      rw [hspan.2] at hfirst
      exact hfirst s (List.mem_append_left _ hs)
    · intro htaken
      refine List.forall_mem_append.2 ⟨single_steps _, List.forall_mem_singleton.2 ?_⟩
      refine List.forall_mem_cons.2 ⟨fun s hs => ?_, fun spacedPath hmem => ?_⟩
      · rcases List.mem_append.1 ((List.dropWhile_sublist _).subset hs) with hs | hs
        · exact htaken s hs
        · exact single_spaced hpath s hs
      · obtain ⟨path'', hpath'', rfl⟩ := List.mem_map.1 hmem
        exact single_spaced (hrest path'' hpath'')
  · exact List.cons_ne_nil path' rest

/-! ### Built paths -/

/-- No spelling of a bound holds the bracket that closes an index, unless this is the minus sign. -/
theorem SpellsBound.indexClose_not_mem (hd : d.Legal) (hminus : d.indexClose ≠ '-')
    {text : List Char} {b : Bound} (h : SpellsBound d text b) : d.indexClose ∉ text := by
  intro hmem
  rcases h.mem hmem with heq | heq | hdigit
  · exact hd.ne (r := .indexClose) (s := .wildcard) (by decide) heq
  · exact hminus heq
  · exact hd.ne_of_isDigit .indexClose hdigit rfl

theorem spelled_index (hd : d.Legal) (hminus : d.indexClose ≠ '-') (i : Index) :
    Spelled d (.index i.plain) := by
  rcases i with ⟨start, stop, mode⟩
  have hclose : ∀ b : Bound, d.indexClose ∉ b.render d :=
    fun b => (spellsBound_render b).indexClose_not_mem hd hminus
  cases mode with
  | single =>
    exact ⟨_, .index (.one (spellsBound_render start) (padded_self _)) (hclose start)⟩
  | range =>
    refine ⟨_, .index (.slice (spellsBound_render start) (padded_self _)
      (spellsBound_render stop) (padded_self _)) ?_⟩
    have hrange := hd.bracketed .rangeSeparator (.role .indexClose) (by decide)
    rw [List.mem_append, List.mem_cons, not_or, not_or]
    exact ⟨hclose start, hrange.symm, hclose stop⟩

/-- The text of a path compiles to what it spells, if the alternation in that is single. -/
theorem ofText?_text_eq_ok_iff {p q : Path} {ops : List Op}
    (h : Spells .standard (renderOps .standard p.ops) ops) :
    Path.ofText? p.text = .ok q ↔ q = ⟨ops⟩ ∧ ∀ op ∈ ops, op.Single := by
  have htext : p.text.toList = renderOps .standard p.ops := String.toList_ofList
  rw [← htext] at h
  rw [Path.ofText?, Compiler.compile, map_eq_ok_iff]
  constructor
  · intro h
    obtain ⟨ops', hops', rfl⟩ := h
    obtain ⟨rfl, hsingle⟩ :=
      (compileOps_eq_ok_iff_of_spells Delimiters.separable_standard h).1 hops'
    exact ⟨rfl, hsingle⟩
  · intro h
    obtain ⟨rfl, hsingle⟩ := h
    refine ⟨ops, ?_, rfl⟩
    exact (compileOps_eq_ok_iff_of_spells Delimiters.separable_standard h).2 ⟨rfl, hsingle⟩

/-- A path of one step that is spelled compiles from its text. -/
theorem ofText?_step {s : Step} (h : Spelled .standard s) (hplain : s.plain = s) :
    Path.ofText? (Path.text ⟨[.step s]⟩) = .ok ⟨[.step s]⟩ := by
  have hsteps : ∀ t ∈ [s], Spelled .standard t.plain :=
    List.forall_mem_singleton.2 (hplain.symm ▸ h)
  have hspells := spells_spaced Delimiters.separable_standard.toLegal hsteps
  have hspaced : spaced false [s] = [s] := by
    simp [spaced, hplain]
  rw [hspaced] at hspells
  exact (ofText?_text_eq_ok_iff hspells).2 ⟨rfl, List.forall_mem_singleton.2 trivial⟩

/-- A default that some text compiles to. -/
def Default.Compiled (v : Default) : Prop :=
  ∃ text q, Path.ofText? text = .ok q ∧ .default v ∈ q.steps

/-- Those are the defaults that have a spelling. -/
theorem Default.compiled_iff {v : Default} : v.Compiled ↔ Spelled .standard (.default v) := by
  constructor
  · intro h
    obtain ⟨text, q, hq, hv⟩ := h
    obtain ⟨ops, hops, rfl⟩ := map_eq_ok_iff.1 hq
    obtain ⟨op, hop, hv⟩ := List.mem_flatMap.1 hv
    have hspells := spells_of_compileOps Delimiters.separable_standard hops
    exact hspells.spelled Delimiters.separable_standard.toLegal op hop _ hv
  · intro h
    exact ⟨_, _, ofText?_step h rfl, List.mem_cons_self⟩

/-- No default is null when it is written. -/
theorem Spelled.value_ne_null {v : Default} (h : Spelled d (.default v)) : v.value ≠ .null := by
  obtain ⟨token, h⟩ := h
  cases h with
  | default hinside _ =>
    cases hinside with
    | mk _ _ _ hcoerce => exact (coerce_eq_ok_iff.1 hcoerce).ne_null

/-- Each step of a built path is spelled, as far as its text tells. -/
theorem Path.Built.spelled {p : Path} (h : p.Built)
    (hdefault : ∀ v, .default v ∈ p.steps → v.Compiled) :
    ∀ s ∈ p.steps, Spelled .standard s.plain := by
  intro s hs
  cases s with
  | key name =>
    have htoken := SpellsStep.key (h.keys name hs)
    rw [String.ofList_toList] at htoken
    exact ⟨_, htoken⟩
  | index i => exact spelled_index Delimiters.separable_standard.toLegal (by decide) i
  | default v => exact Default.compiled_iff.1 (hdefault v hs)
  | capture => exact ⟨_, .capture⟩
  | divider => exact ⟨_, .divider⟩
  | anyEntry => exact ⟨_, .anyEntry (padded_self _)⟩

end DocPath
