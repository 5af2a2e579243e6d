import DocPath.Proofs.Building
import DocPath.Proofs.Segments

/-!
# DocPath.Proofs.Reading

The compiler accepts exactly the grammar. A text that spells operations is compiled to them, as far
as its alternation can be built (`compileOps_eq_ok_iff_of_spells`); conversely a text spells what it
is compiled to (`spells_of_compileOps`). The default delimiters satisfy what both directions need
(`ofText?_eq_ok_iff_spells`).
-/

namespace DocPath

open DocPath.Text

variable {d : Delimiters}

/-! ### The equations of the compiler -/

/-- The alternation between the paths that texts spell. -/
def alternation? (d : Delimiters) (parts : List (List Char)) : Except CompileError Op := do
  let paths ← parts.mapM fun part => compileOps d (trim part)
  Op.ofPaths? (paths.map Path.mk)

/-- The operations of an outline. -/
def Outline.toOps? (d : Delimiters) (o : Outline) : Except CompileError (List Op) :=
  if o.alternatives.isEmpty then .ok (o.steps.map .step)
  else (alternation? d o.alternatives).map (o.steps.map .step ++ [·])

theorem compileOps_eq (d : Delimiters) (text : List Char) :
    compileOps d text = outline d text >>= Outline.toOps? d := by
  rw [compileOps]
  split
  next e ho =>
    rw [ho]
    rfl
  next o ho =>
    have hmap : (o.alternatives.attach.mapM fun part => compileOps d (trim part.1)) =
        o.alternatives.mapM fun part => compileOps d (trim part) := by
      rw [List.mapM_subtype (g := fun part => compileOps d (trim part)) fun _ _ => rfl,
        List.unattach_attach]
    rw [ho, hmap]
    show _ = Outline.toOps? d o
    rw [Outline.toOps?, alternation?]
    split
    next => rfl
    next =>
      cases o.alternatives.mapM fun part => compileOps d (trim part) with
      | error e => rfl
      | ok paths =>
        show _ = (Op.ofPaths? (paths.map Path.mk)).map _
        dsimp only
        cases Op.ofPaths? (paths.map Path.mk) with
        | error e => rfl
        | ok op => rfl

/-- Steps in front of an outline are operations in front of those it gives. -/
theorem Outline.toOps?_append (steps : List Step) (o : Outline) :
    Outline.toOps? d ⟨steps ++ o.steps, o.alternatives⟩ =
      (o.toOps? d).map (steps.map .step ++ ·) := by
  rw [Outline.toOps?, Outline.toOps?, List.map_append]
  split
  next => rfl
  next =>
    cases alternation? d o.alternatives with
    | error e => rfl
    | ok op => exact congrArg Except.ok (List.append_assoc ..)

theorem Outline.toOps?_append_divider (steps : List Step) (o : Outline) :
    Outline.toOps? d ⟨steps ++ .divider :: o.steps, o.alternatives⟩ =
      (o.toOps? d).map fun ops => steps.map .step ++ .divider :: ops := by
  rw [List.append_cons, Outline.toOps?_append]
  simp only [List.map_append, List.append_assoc]
  rfl

/-- An alternation is built if every text compiles to steps that give one value each. -/
theorem alternation?_eq_ok_iff {parts : List (List Char)} {op : Op} :
    alternation? d parts = .ok op ↔ ∃ paths, op = .alternatives paths ∧
      List.Forall₂ (fun part path => compileOps d (trim part) = .ok (path.map .step)) parts paths ∧
        op.Single := by
  rw [alternation?, bind_eq_ok_iff]
  constructor
  · intro h
    obtain ⟨ops, hops, h⟩ := h
    obtain ⟨paths, rfl, heq, hsingle⟩ := ofPaths?_eq_ok_iff.1 h
    have hops' : ops.map Path.mk = (paths.map (·.map .step)).map Path.mk := by
      rw [List.map_map]
      exact heq
    obtain rfl := (List.map_inj_right fun _ _ h => Path.mk.inj h).1 hops'
    have hparts := mapM_eq_ok_iff.1 hops
    rw [List.forall₂_map_right_iff] at hparts
    exact ⟨paths, rfl, hparts, hsingle⟩
  · intro h
    obtain ⟨paths, rfl, hparts, hsingle⟩ := h
    refine ⟨paths.map (·.map .step), mapM_eq_ok_iff.2 (List.forall₂_map_right_iff.2 hparts), ?_⟩
    refine ofPaths?_eq_ok_iff.2 ⟨paths, rfl, ?_, hsingle⟩
    rw [List.map_map]
    rfl

/-- A text that is one segment is read as such. -/
theorem outline_of_uncut {text : List Char} (h : Uncut d d.segmentDivider text) :
    outline d text = scanSegment d (trim text) true (trim text) := by
  rw [outline, split_of_uncut h]
  rfl

/-- The first segment and its divider are read before the rest. -/
theorem outline_append_divider (hd : d.Legal) {first rest : List Char}
    (h : Passes d d.segmentDivider first) : outline d (first ++ d.segmentDivider :: rest) =
      match scanSegment d (trim first) false (trim first) with
      | .error e => .error e
      | .ok o =>
        match outline d rest with
        | .error e => .error e
        | .ok after => .ok ⟨o.steps ++ .divider :: after.steps, after.alternatives⟩ := by
  have hsep : Separates d d.segmentDivider := hd.separates (r := .segmentDivider) (Or.inl rfl)
  rw [outline, split_append_separator hsep h]
  rfl

/-! ### What is compiled -/

/-- Trimming a text changes nothing about the steps that are read from it. -/
theorem scanSegment_trim_of_spellsSteps (hd : d.Separable) {segment text : List Char}
    {isLast : Bool} {steps : List Step} (h : SpellsSteps d text steps) :
    scanSegment d segment isLast (trim text) = .ok ⟨steps, []⟩ :=
  scanSegment_of_spellsSteps hd ((spellsSteps_trim_iff hd.toLegal).2 h)

theorem compileOps_steps (hd : d.Separable) {text : List Char} {steps : List Step}
    (h : SpellsSteps d text steps) : compileOps d text = .ok (steps.map .step) := by
  have huncut : Uncut d d.segmentDivider text :=
    (h.passes hd (r := .segmentDivider) (Or.inl rfl)).uncut
  rw [compileOps_eq, outline_of_uncut huncut, scanSegment_trim_of_spellsSteps hd h]
  rfl

/-- A segment in front of others adds its steps and a divider to what they are compiled to. -/
theorem compileOps_segment (hd : d.Separable) {first : List Char} {steps : List Step}
    (h : SpellsSteps d first steps) (rest : List Char) :
    compileOps d (first ++ d.segmentDivider :: rest) =
      (compileOps d rest).map fun ops => steps.map .step ++ .divider :: ops := by
  have hpasses : Passes d d.segmentDivider first :=
    h.passes hd (r := .segmentDivider) (Or.inl rfl)
  rw [compileOps_eq, compileOps_eq, outline_append_divider hd.toLegal hpasses,
    scanSegment_trim_of_spellsSteps hd h]
  cases outline d rest with
  | error e => rfl
  | ok after =>
    exact Outline.toOps?_append_divider steps after

/-- The parts of a body are compiled as segments of their own. -/
theorem compileOps_trim_of_spellsSteps (hd : d.Separable) {text : List Char} {steps : List Step}
    (h : SpellsSteps d text steps) : compileOps d (trim text) = .ok (steps.map .step) :=
  compileOps_steps hd ((spellsSteps_trim_iff hd.toLegal).2 h)

theorem SpellsAlternatives.passes (hd : d.Separable) {text : List Char}
    {paths : List (List Step)} (h : SpellsAlternatives d text paths) :
    Passes d d.segmentDivider text := by
  induction h with
  | last hsteps => exact hsteps.passes hd (r := .segmentDivider) (Or.inl rfl)
  | cons hfirst _ ih =>
    have halternation : Passes d d.segmentDivider [d.alternation] := by
      refine Passes.of_forall fun c hc => ?_
      rw [List.mem_singleton.1 hc]
      exact ⟨hd.ne (r := .alternation) (s := .defaultOpen) (by decide),
        hd.ne (r := .alternation) (s := .indexOpen) (by decide),
        hd.ne (r := .alternation) (s := .segmentDivider) (by decide)⟩
    have hpasses := hfirst.passes hd (r := .segmentDivider) (Or.inl rfl)
    rw [List.append_cons]
    exact (hpasses.append halternation).append ih

/-- The outline of steps before the body of an alternation. -/
theorem outline_of_spellsLead (hd : d.Separable) {text body : List Char} {lead path : List Step}
    {paths : List (List Step)} (hlead : SpellsLead d body text lead)
    (hbody : SpellsAlternatives d body (path :: paths)) (hne : paths ≠ [])
    (hstart : StartsInside path) : ∃ parts, outline d text = .ok ⟨lead, parts⟩ ∧ parts ≠ [] ∧
      List.Forall₂ (SpellsSteps d) parts (path :: paths) := by
  have huncut : Uncut d d.segmentDivider text :=
    (hlead.uncut_iff hd (r := .segmentDivider) (Or.inl rfl)).2 (hbody.passes hd).uncut
  obtain ⟨before, after, hbefore, hafter, htext⟩ := padded_trim text
  cases hbody with
  | last => exact absurd rfl hne
  | @cons first rest _ _ hfirst hrest =>
    have hblank : isBlank d.alternation = false := hd.notBlank .alternation
    obtain ⟨body', hbody', hlead'⟩ :=
      hlead.of_append_blanks hd.toLegal rfl hblank hafter htext
    have halternatives : SpellsAlternatives d body' (path :: paths) :=
      (SpellsAlternatives.cons hfirst hrest).of_append_blanks hd.toLegal hafter hbody'
    obtain ⟨parts, hparts, hpaths⟩ := halternatives.exists_body hd hne hstart
    refine ⟨parts, ?_, ?_, hpaths⟩
    · have hscan : scanSegment d (trim text) true (before ++ trim text) = .ok ⟨lead, parts⟩ :=
        scanSegment_of_spellsLead hd hlead' hparts.scanSegment
      rw [outline_of_uncut huncut, ← hscan, ← scanSegment_trimStart (before ++ trim text),
        trimStart_append hbefore, scanSegment_trimStart]
    · intro heq
      subst heq
      exact List.not_mem_nil (List.forall₂_nil_left_iff.1 hpaths ▸ List.mem_cons_self)

/-- An alternation after steps compiles as far as it can be built of its paths. -/
theorem compileOps_alternation (hd : d.Separable) {text body : List Char} {lead path : List Step}
    {paths : List (List Step)} (hlead : SpellsLead d body text lead)
    (hbody : SpellsAlternatives d body (path :: paths)) (hne : paths ≠ [])
    (hstart : StartsInside path) : compileOps d text =
      (Op.ofPaths? ((path :: paths).map Path.ofSteps)).map (lead.map .step ++ [·]) := by
  obtain ⟨parts, houtline, hparts, hpaths⟩ := outline_of_spellsLead hd hlead hbody hne hstart
  have hmap : (parts.mapM fun part => compileOps d (trim part)) =
      .ok ((path :: paths).map (·.map .step)) := by
    rw [mapM_eq_ok_iff, List.forall₂_map_right_iff]
    exact hpaths.imp fun _ _ h => compileOps_trim_of_spellsSteps hd h
  rw [compileOps_eq, houtline]
  show Outline.toOps? d ⟨lead, parts⟩ = _
  rw [Outline.toOps?, if_neg (by simpa using hparts), alternation?, hmap]
  show (Op.ofPaths? (((path :: paths).map (·.map .step)).map Path.mk)).map _ = _
  rw [List.map_map]
  rfl

/-- What a text spells is what it is compiled to, as far as its alternation can be built. -/
theorem compileOps_eq_ok_iff_of_spells (hd : d.Separable) {text : List Char} {ops ops' : List Op}
    (h : Spells d text ops) :
    compileOps d text = .ok ops' ↔ ops' = ops ∧ ∀ op ∈ ops, op.Single := by
  induction h generalizing ops' with
  | @steps text steps hspells =>
    rw [compileOps_steps hd hspells, Except.ok.injEq]
    exact ⟨fun h => ⟨h.symm, single_steps steps⟩, fun h => h.1.symm⟩
  | @alternation text body lead path paths hlead hbody hne hstart =>
    rw [compileOps_alternation hd hlead hbody hne hstart, map_eq_ok_iff]
    constructor
    · intro h
      obtain ⟨op, hop, rfl⟩ := h
      obtain ⟨paths', rfl, hpaths, hsingle⟩ := ofPaths?_eq_ok_iff.1 hop
      have hinj : ∀ a b : List Step, Path.ofSteps a = Path.ofSteps b → a = b := fun a b hab =>
        (List.map_inj_right fun _ _ h => Op.step.inj h).1 (Path.mk.inj hab)
      obtain rfl := (List.map_inj_right hinj).1 hpaths
      refine ⟨rfl, List.forall_mem_append.2 ⟨single_steps lead, ?_⟩⟩
      exact List.forall_mem_singleton.2 hsingle
    · intro h
      obtain ⟨rfl, hsingle⟩ := h
      have hop := hsingle _ (List.mem_append_right _ List.mem_cons_self)
      exact ⟨_, ofPaths?_eq_ok_iff.2 ⟨path :: paths, rfl, rfl, hop⟩, rfl⟩
  | @segment first rest steps ops hfirst _ ih =>
    rw [compileOps_segment hd hfirst, map_eq_ok_iff]
    constructor
    · intro h
      obtain ⟨ops', hops', rfl⟩ := h
      obtain ⟨rfl, hsingle⟩ := ih.1 hops'
      have hrest : ∀ op ∈ Op.divider :: ops', op.Single :=
        List.forall_mem_cons.2 ⟨trivial, hsingle⟩
      exact ⟨rfl, List.forall_mem_append.2 ⟨single_steps steps, hrest⟩⟩
    · intro h
      obtain ⟨rfl, hsingle⟩ := h
      have hrest := (List.forall_mem_append.1 hsingle).2
      exact ⟨ops, ih.2 ⟨rfl, (List.forall_mem_cons.1 hrest).2⟩, rfl⟩

/-! ### What was compiled -/

/-- A text that no separator cuts is compiled to steps alone, and spells them. -/
theorem exists_spellsSteps_of_compileOps (hd : d.Separable) {text : List Char} {ops : List Op}
    (hdivider : Uncut d d.segmentDivider text) (halternation : Uncut d d.alternation text)
    (h : compileOps d text = .ok ops) :
    ∃ steps, ops = steps.map .step ∧ SpellsSteps d text steps := by
  have huncut : Uncut d d.segmentDivider (trim text) :=
    Uncut.trim hd.toLegal (r := .segmentDivider) hdivider
  rw [compileOps_eq, outline_of_uncut hdivider, bind_eq_ok_iff] at h
  obtain ⟨o, ho, hops⟩ := h
  rcases spells_of_scanSegment hd huncut ho with ⟨hnone, hsteps⟩ | ⟨-, body, hlead, hbody⟩
  · rw [Outline.toOps?, hnone] at hops
    exact ⟨o.steps, (Except.ok.inj hops).symm, (spellsSteps_trim_iff hd.toLegal).1 hsteps⟩
  · refine absurd ?_ hbody.cut
    have huncut' : Uncut d d.alternation (trim text) :=
      Uncut.trim hd.toLegal (r := .alternation) halternation
    exact (uncut_trimStart_iff hd.toLegal (r := .alternation)).2
      ((hlead.uncut_iff hd (r := .alternation) (Or.inr rfl)).1 huncut')

/-- A part that compiles to steps spells them, for no separator cuts it. -/
theorem spellsSteps_of_compileOps (hd : d.Separable) {part : List Char} {steps : List Step}
    (hdivider : Uncut d d.segmentDivider part) (halternation : Uncut d d.alternation part)
    (h : compileOps d (trim part) = .ok (steps.map .step)) : SpellsSteps d part steps := by
  obtain ⟨steps', hmap, hsteps⟩ := exists_spellsSteps_of_compileOps hd
    (Uncut.trim hd.toLegal (r := .segmentDivider) hdivider)
    (Uncut.trim hd.toLegal (r := .alternation) halternation) h
  rw [(List.map_inj_right fun _ _ h => Op.step.inj h).1 hmap]
  exact (spellsSteps_trim_iff hd.toLegal).1 hsteps

/-- The parts of a body spell the steps that they are compiled to. -/
theorem spellsSteps_of_parts (hd : d.Separable) {body : List Char} {parts : List (List Char)}
    {paths : List (List Step)} (huncut : Uncut d d.segmentDivider body) (hbody : Body d body parts)
    (h : List.Forall₂ (fun part path => compileOps d (trim part) = .ok (path.map .step)) parts
      paths) : List.Forall₂ (SpellsSteps d) parts paths := by
  have hdivider : Uncut d d.segmentDivider (trimStart body) :=
    (uncut_trimStart_iff hd.toLegal (r := .segmentDivider)).2 huncut
  have hparts : ∀ part ∈ parts, Uncut d d.segmentDivider part ∧ Uncut d d.alternation part := by
    intro part hpart
    rw [hbody.parts_eq] at hpart
    exact ⟨uncut_of_mem_split (Or.inr hdivider) hpart, uncut_of_mem_split (Or.inl rfl) hpart⟩
  exact ((List.forall₂_and_left _ _).2 ⟨hparts, h⟩).imp fun part path hpart =>
    spellsSteps_of_compileOps hd hpart.1.1 hpart.1.2 hpart.2

/-- Operations read from a last segment are spelled by it. -/
theorem spells_of_lastSegment (hd : d.Separable) {segment : List Char} {o : Outline}
    {ops : List Op} (huncut : Uncut d d.segmentDivider segment)
    (ho : scanSegment d (trim segment) true (trim segment) = .ok o) (hops : o.toOps? d = .ok ops) :
    Spells d segment ops := by
  have htrim : Uncut d d.segmentDivider (trim segment) :=
    Uncut.trim hd.toLegal (r := .segmentDivider) huncut
  rcases spells_of_scanSegment hd htrim ho with ⟨hnone, hsteps⟩ | ⟨-, body, hlead, hbody⟩
  · rw [Outline.toOps?, hnone] at hops
    rw [← Except.ok.inj hops]
    exact .steps ((spellsSteps_trim_iff hd.toLegal).1 hsteps)
  · have hne : o.alternatives ≠ [] := by
      rw [hbody.parts_eq]
      exact List.cons_ne_nil _ _
    rw [Outline.toOps?, if_neg (by simpa using hne)] at hops
    obtain ⟨op, hop, rfl⟩ := map_eq_ok_iff.1 hops
    obtain ⟨paths, rfl, hcompiled, -⟩ := alternation?_eq_ok_iff.1 hop
    have hdivider : Uncut d d.segmentDivider body :=
      (hlead.uncut_iff hd (r := .segmentDivider) (Or.inl rfl)).1 htrim
    obtain ⟨path, rest, rfl, hrest, hstart, halternatives⟩ :=
      hbody.spellsAlternatives hd (spellsSteps_of_parts hd hdivider hbody hcompiled)
    obtain ⟨before, after, hbefore, hafter, hsegment⟩ := padded_trim segment
    have hlead' := (hlead.trimStart.append after).blanks_append hbefore
    rw [← List.append_assoc, ← hsegment] at hlead'
    exact .alternation hlead' (halternatives.append_blanks hafter) hrest hstart

/-- Operations read from segments are spelled by them. -/
theorem spells_of_scanSegments (hd : d.Separable) {segment : List Char}
    {others : List (List Char)} {o : Outline} {ops : List Op}
    (huncut : ∀ s ∈ segment :: others, Uncut d d.segmentDivider s)
    (ho : scanSegments d segment others = .ok o) (hops : o.toOps? d = .ok ops) :
    Spells d (joinParts d.segmentDivider (segment, others)) ops := by
  induction others generalizing segment o ops with
  | nil =>
    rw [joinParts, List.flatMap_nil, List.append_nil]
    exact spells_of_lastSegment hd (huncut segment List.mem_cons_self) ho hops
  | cons next others ih =>
    obtain ⟨hsegment, hothers⟩ := List.forall_mem_cons.1 huncut
    rw [scanSegments] at ho
    split at ho
    next => simp at ho
    next first hfirst =>
      split at ho
      next => simp at ho
      next rest hrest =>
        rw [Except.ok.injEq] at ho
        subst ho
        have htrim : Uncut d d.segmentDivider (trim segment) :=
          Uncut.trim hd.toLegal (r := .segmentDivider) hsegment
        obtain ⟨-, hsteps⟩ := (spells_of_scanSegment hd htrim hfirst).resolve_right fun h => by
          simp at h
        rw [Outline.toOps?_append_divider] at hops
        obtain ⟨ops', hops', rfl⟩ := map_eq_ok_iff.1 hops
        rw [joinParts_cons]
        exact .segment ((spellsSteps_trim_iff hd.toLegal).1 hsteps) (ih hothers hrest hops')

/-- What a text is compiled to is what it spells. -/
theorem spells_of_compileOps (hd : d.Separable) {text : List Char} {ops : List Op}
    (h : compileOps d text = .ok ops) : Spells d text ops := by
  rw [compileOps_eq, bind_eq_ok_iff] at h
  obtain ⟨o, ho, hops⟩ := h
  have huncut : ∀ s ∈ (split d d.segmentDivider text).1 :: (split d d.segmentDivider text).2,
      Uncut d d.segmentDivider s := fun s hs => uncut_of_mem_split (Or.inl rfl) hs
  have hspells := spells_of_scanSegments hd huncut ho hops
  exact join_split d d.segmentDivider text ▸ hspells

/-- A text is compiled to operations exactly if it spells them, and every step in its alternation
gives one value. -/
theorem compileOps_eq_ok_iff (hd : d.Separable) {text : List Char} {ops : List Op} :
    compileOps d text = .ok ops ↔ Spells d text ops ∧ ∀ op ∈ ops, op.Single := by
  constructor
  · intro h
    have hspells := spells_of_compileOps hd h
    exact ⟨hspells, ((compileOps_eq_ok_iff_of_spells hd hspells).1 h).2⟩
  · intro h
    obtain ⟨hspells, hsingle⟩ := h
    exact (compileOps_eq_ok_iff_of_spells hd hspells).2 ⟨rfl, hsingle⟩

/-- The compiler of the default delimiters accepts exactly the grammar. -/
theorem ofText?_eq_ok_iff_spells (text : String) (p : Path) :
    Path.ofText? text = .ok p ↔ Spells .standard text.toList p.ops ∧ ∀ op ∈ p.ops, op.Single := by
  rw [← compileOps_eq_ok_iff Delimiters.separable_standard, Path.ofText?, Compiler.compile,
    map_eq_ok_iff]
  constructor
  · intro h
    obtain ⟨ops, hops, rfl⟩ := h
    exact hops
  · exact fun h => ⟨p.ops, h, rfl⟩

end DocPath
