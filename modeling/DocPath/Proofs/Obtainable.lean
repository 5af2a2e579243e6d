import DocPath.Proofs.Rendering

/-!
# DocPath.Proofs.Obtainable

What every path satisfies, however it was made. Paths come from compilers and from checked lists of
operations, alternations from checked lists of paths, and parts of both can be used again
(`Path.Obtainable`). In all of them an alternation comes last, and its paths have only steps that
give exactly one value (`Path.WellFormed`).

The compiler builds paths without the checks, and its keys end at six characters where the checks
forbid seven. That a key never holds the seventh, the alternation, is due to the order of a turn,
which looks for an alternation in the whole rest first (`spelled_of_turn`). So the checks would let
everything through that is compiled in the default delimiters (`obtainable_invariant`). Of the names
of keys they let through exactly those that compile to a key alone (`key_check_exact`).
-/

namespace DocPath

open DocPath.Text

/-! ### How paths are made -/

mutual

/-- Paths that can be made. -/
inductive Path.Obtainable : Path → Prop
  | compiled {c : Compiler} {text : String} {p : Path} : c.compile text = .ok p → p.Obtainable
  | checked {ops : List Op} {p : Path} : (∀ op ∈ ops, op.Obtainable) → Path.ofOps? ops = .ok p →
      p.Obtainable
  /-- A path of an alternation. -/
  | alternative {paths : List (List Step)} {steps : List Step} :
      (Op.alternatives paths).Obtainable → steps ∈ paths → (Path.ofSteps steps).Obtainable

/-- Operations that can be made. -/
inductive Op.Obtainable : Op → Prop
  | step (s : Step) : (Op.step s).Obtainable
  | alternation {paths : List Path} {op : Op} : (∀ p ∈ paths, p.Obtainable) →
      Op.ofPaths? paths = .ok op → op.Obtainable
  /-- An operation of a path. -/
  | part {p : Path} {op : Op} : p.Obtainable → op ∈ p.ops → op.Obtainable

end

/-! ### The invariant -/

/-- The paths of the alternatives. -/
def Op.alternativePaths : Op → List Path
  | step _ => []
  | alternatives paths => paths.map Path.ofSteps

/-- The path itself and the paths of its alternatives. -/
def Path.parts (p : Path) : List Path :=
  p :: p.ops.flatMap Op.alternativePaths

/-- What all paths have in common. -/
structure Path.WellFormed (p : Path) : Prop where
  /-- There are steps, and at most one alternation, after them. -/
  last : ∃ steps : List Step,
    p.ops = steps.map .step ∨ ∃ paths, p.ops = steps.map .step ++ [.alternatives paths]
  /-- No path of an alternation has another alternation, the wildcard for every entry, or an index
  without bounds. -/
  single : ∀ op ∈ p.ops, ∀ q ∈ op.alternativePaths, ∀ o ∈ q.ops,
    o.isAlternatives = false ∧ o ≠ .anyEntry ∧ ∀ i, o = .index i → i.isBounded = true

theorem Path.wellFormed_of_single {p : Path} (hlast : misplaced? p.ops = none)
    (hsingle : ∀ op ∈ p.ops, op.Single) : p.WellFormed := by
  refine ⟨misplaced?_eq_none_iff.1 hlast, fun op hop q hq o ho => ?_⟩
  have hop := hsingle op hop
  cases op with
  | step => cases hq
  | alternatives paths =>
    obtain ⟨steps, hsteps, rfl⟩ := List.mem_map.1 hq
    obtain ⟨s, hs, rfl⟩ := List.mem_map.1 ho
    have hs := hop steps hsteps s hs
    refine ⟨rfl, ?_, ?_⟩
    · rintro ⟨⟩
      cases hs
    · rintro i ⟨⟩
      exact hs

/-- The two forms of what a text is compiled to: the steps of its outline, or these and an
alternation after them, whose paths are compiled from texts of their own. -/
theorem compileOps_forms {d : Delimiters} {text : List Char} {ops : List Op}
    (h : compileOps d text = .ok ops) : ∃ o, outline d text = .ok o ∧
      (ops = o.steps.map .step ∨ ∃ paths, ops = o.steps.map .step ++ [.alternatives paths] ∧
        List.Forall₂ (fun part path => compileOps d (trim part) = .ok (path.map .step))
          o.alternatives paths ∧ (Op.alternatives paths).Single) := by
  rw [compileOps_eq, bind_eq_ok_iff] at h
  obtain ⟨o, ho, h⟩ := h
  refine ⟨o, ho, ?_⟩
  rw [Outline.toOps?] at h
  split at h
  next => exact Or.inl (Except.ok.inj h).symm
  next =>
    obtain ⟨op, hop, rfl⟩ := map_eq_ok_iff.1 h
    obtain ⟨paths, rfl, hparts, hsingle⟩ := alternation?_eq_ok_iff.1 hop
    exact Or.inr ⟨paths, rfl, hparts, hsingle⟩

/-- An alternation that a text is compiled to comes last, and has only steps that give one value. -/
theorem single_of_compileOps {d : Delimiters} {text : List Char} {ops : List Op}
    (h : compileOps d text = .ok ops) : misplaced? ops = none ∧ ∀ op ∈ ops, op.Single := by
  obtain ⟨o, -, rfl | ⟨paths, rfl, -, hsingle⟩⟩ := compileOps_forms h
  · exact ⟨misplaced?_eq_none_iff.2 ⟨o.steps, Or.inl rfl⟩, single_steps o.steps⟩
  · exact ⟨misplaced?_eq_none_iff.2 ⟨o.steps, Or.inr ⟨paths, rfl⟩⟩,
      List.forall_mem_append.2 ⟨single_steps o.steps, List.forall_mem_singleton.2 hsingle⟩⟩

mutual

theorem Path.Obtainable.misplaced_single {p : Path} :
    p.Obtainable → misplaced? p.ops = none ∧ ∀ op ∈ p.ops, op.Single
  | .compiled h => by
    obtain ⟨ops, hops, rfl⟩ := map_eq_ok_iff.1 h
    exact single_of_compileOps hops
  | .checked hops h => by
    obtain ⟨rfl, -, hlast⟩ := ofOps?_eq_ok_iff.1 h
    exact ⟨hlast, fun op hop => (hops op hop).single⟩
  | .alternative _ _ => ⟨misplaced?_eq_none_iff.2 ⟨_, Or.inl rfl⟩, single_steps _⟩

theorem Op.Obtainable.single {op : Op} : op.Obtainable → op.Single
  | .step _ => trivial
  | .alternation _ h => by
    obtain ⟨paths, rfl, -, hsingle⟩ := ofPaths?_eq_ok_iff.1 h
    exact hsingle
  | .part hp hop => hp.misplaced_single.2 _ hop

end

/-! ### Steps of compiled paths -/

variable {d : Delimiters}

/-- A step that a turn reads has a spelling. -/
theorem spelled_of_turn (hd : d.Legal) {segment tail after : List Char} {isLast : Bool}
    {head : Char} {s : Step} (hblank : isBlank head = false)
    (h : turn d segment isLast head tail = .ok (.step s after)) : Spelled d s := by
  by_cases hleads : head ∈ d.leads
  · rcases mem_leads_iff.1 hleads with rfl | rfl | rfl | rfl
    · rw [turn, if_pos rfl, Except.ok.injEq, Turn.step.injEq] at h
      obtain ⟨rfl, -⟩ := h
      exact ⟨_, .capture⟩
    · obtain ⟨_, _, rfl, hindex, hclose, -⟩ := (turn_indexOpen_iff hd).1 h
      exact ⟨_, .index hindex hclose⟩
    · obtain ⟨_, _, rfl, hdefault, hquoted, -⟩ := (turn_defaultOpen_iff hd).1 h
      exact ⟨_, .default hdefault hquoted⟩
    · obtain ⟨_, rfl, hpad, -⟩ := (turn_anyEntryOpen_iff hd).1 h
      exact ⟨_, .anyEntry hpad⟩
  rw [turn_of_not_leads hleads] at h
  split at h
  next => split at h <;> cases h
  next hparts =>
    split at h
    next =>
      rw [Except.ok.injEq, Turn.step.injEq] at h
      obtain ⟨rfl, -⟩ := h
      exact ⟨_, .divider⟩
    next hdivider =>
      rw [Except.ok.injEq, Turn.step.injEq] at h
      obtain ⟨rfl, -⟩ := h
      have hhead : head ∉ d.keyEnds := by
        rw [mem_keyEnds_iff, not_or]
        exact ⟨hleads, hdivider⟩
      obtain ⟨core, blanks, htrim, -, htext⟩ :=
        exists_trim_cons hblank (tail.takeWhile (!d.keyEnds.contains ·))
      rw [htrim]
      exact ⟨_, .key (keyName_of_takeWhile hd hhead (Classical.not_not.1 hparts) htrim htext)⟩

theorem spelled_of_scanSegment (hd : d.Legal) {segment rest : List Char} {isLast : Bool}
    {o : Outline} (h : scanSegment d segment isLast rest = .ok o) : ∀ s ∈ o.steps, Spelled d s := by
  fun_induction scanSegment d segment isLast rest generalizing o with
  | case1 =>
    obtain rfl := Except.ok.inj h
    exact List.forall_mem_nil _
  | case2 => cases h
  | case3 =>
    obtain rfl := Except.ok.inj h
    exact List.forall_mem_nil _
  | case4 => cases h
  | case5 rest head tail hrest s after hturn o' ho' ih =>
    obtain rfl := Except.ok.inj h
    exact List.forall_mem_cons.2 ⟨spelled_of_turn hd (isBlank_of_trimStart hrest) hturn, ih ho'⟩

theorem spelled_of_scanSegments (hd : d.Legal) {segment : List Char} {others : List (List Char)}
    {o : Outline} (h : scanSegments d segment others = .ok o) : ∀ s ∈ o.steps, Spelled d s := by
  induction others generalizing segment o with
  | nil => exact spelled_of_scanSegment hd h
  | cons next others ih =>
    rw [scanSegments] at h
    split at h
    next => cases h
    next first hfirst =>
      split at h
      next => cases h
      next rest hrest =>
        obtain rfl := Except.ok.inj h
        exact List.forall_mem_append.2 ⟨spelled_of_scanSegment hd hfirst,
          List.forall_mem_cons.2 ⟨⟨_, .divider⟩, ih hrest⟩⟩

/-- Only steps are among the operations of steps. -/
theorem mem_map_step_iff {op : Op} {steps : List Step} :
    op ∈ steps.map Op.step ↔ ∃ s ∈ steps, op = .step s := by
  rw [List.mem_map]
  exact exists_congr fun s => and_congr_right fun _ => eq_comm

/-- A step among compiled operations has a spelling. -/
theorem spelled_of_compileOps (hd : d.Legal) {text : List Char} {ops : List Op}
    (h : compileOps d text = .ok ops) {s : Step} (hs : .step s ∈ ops) : Spelled d s := by
  obtain ⟨o, ho, hops⟩ := compileOps_forms h
  have hsteps : Op.step s ∈ o.steps.map Op.step := by
    rcases hops with rfl | ⟨paths, rfl, -⟩
    · exact hs
    · exact (List.mem_append.1 hs).resolve_right fun hlast => by
        cases List.mem_singleton.1 hlast
  obtain ⟨s', hs', heq⟩ := mem_map_step_iff.1 hsteps
  obtain rfl := Op.step.inj heq
  exact spelled_of_scanSegments hd ho s hs'

/-- A key among compiled operations can be the name of a key. -/
theorem keyName_of_compileOps (hd : d.Legal) {text : List Char} {ops : List Op}
    (h : compileOps d text = .ok ops) {name : String} (hname : .key name ∈ ops) :
    KeyName d name.toList := by
  obtain ⟨token, htoken⟩ := spelled_of_compileOps hd h hname
  cases htoken with
  | key hname => rwa [String.toList_ofList]

theorem exists_compileOps_of_mem_alternatives {text : List Char} {ops : List Op}
    {paths : List (List Step)} {steps : List Step} (h : compileOps d text = .ok ops)
    (hop : .alternatives paths ∈ ops) (hsteps : steps ∈ paths) :
    ∃ part, compileOps d part = .ok (steps.map .step) := by
  obtain ⟨o, -, hops⟩ := compileOps_forms h
  have hnot : Op.alternatives paths ∉ o.steps.map Op.step := by
    rw [mem_map_step_iff]
    exact nofun
  rcases hops with rfl | ⟨paths', rfl, hparts, -⟩
  · exact absurd hop hnot
  · have hlast := (List.mem_append.1 hop).resolve_left hnot
    obtain rfl := Op.alternatives.inj (List.mem_singleton.1 hlast)
    obtain ⟨part, hpart⟩ := exists_of_forall₂ hparts hsteps
    exact ⟨_, hpart⟩

/-- Every step of a compiled path, those of its alternatives included, has a spelling. -/
theorem spelled_of_mem_steps (hd : d.Legal) {text : List Char} {p : Path}
    (h : compileOps d text = .ok p.ops) : ∀ s ∈ p.steps, Spelled d s := by
  intro s hs
  obtain ⟨op, hop, hs⟩ := List.mem_flatMap.1 hs
  cases op with
  | step t =>
    obtain rfl := List.mem_singleton.1 hs
    exact spelled_of_compileOps hd h hop
  | alternatives paths =>
    obtain ⟨steps, hsteps, hs⟩ := List.mem_flatten.1 hs
    obtain ⟨part, hpart⟩ := exists_compileOps_of_mem_alternatives h hop hsteps
    exact spelled_of_compileOps hd hpart (List.mem_map_of_mem hs)

/-- The parts of a compiled path are all compiled. -/
theorem exists_compileOps_of_mem_parts {text : List Char} {p q : Path}
    (h : compileOps d text = .ok p.ops) (hq : q ∈ p.parts) :
    ∃ part, compileOps d part = .ok q.ops := by
  rcases List.mem_cons.1 hq with rfl | hq
  · exact ⟨text, h⟩
  · obtain ⟨op, hop, hq⟩ := List.mem_flatMap.1 hq
    cases op with
    | step => cases hq
    | alternatives paths =>
      obtain ⟨steps, hsteps, rfl⟩ := List.mem_map.1 hq
      exact exists_compileOps_of_mem_alternatives h hop hsteps

/-- Operations compiled in the default delimiters pass the checks of a list of operations. -/
theorem ofOps?_of_compileOps {text : List Char} {ops : List Op}
    (h : compileOps .standard text = .ok ops) : Path.ofOps? ops = .ok ⟨ops⟩ := by
  refine ofOps?_eq_ok_iff.2 ⟨rfl, fun op hop => ?_, (single_of_compileOps h).1⟩
  cases op with
  | alternatives => rfl
  | step s =>
    refine Op.fault?_step_eq_none_iff.2 ?_
    rintro name rfl
    exact keyName_of_compileOps Delimiters.separable_standard.toLegal h hop

/-- **The invariant of paths.** Every path that can be made, in whatever way, is well formed. If it
is compiled, all its keys, those of its alternatives included, can be names of keys in the
delimiters of the compiler. If these are the default ones, the path and its alternatives pass the
checks of a list of operations. -/
theorem obtainable_invariant {p : Path} (h : p.Obtainable) :
    p.WellFormed ∧
      (∀ (c : Compiler) (text : String), c.compile text = .ok p →
        ∀ q ∈ p.parts, ∀ name, .key name ∈ q.ops → KeyName c.delimiters name.toList) ∧
      ∀ text, Path.ofText? text = .ok p → ∀ q ∈ p.parts, Path.ofOps? q.ops = .ok q := by
  have hcompiled : ∀ {c : Compiler} {text : String}, c.compile text = .ok p →
      compileOps c.delimiters text.toList = .ok p.ops := by
    intro c text hp
    obtain ⟨ops, hops, rfl⟩ := map_eq_ok_iff.1 hp
    exact hops
  refine ⟨Path.wellFormed_of_single h.misplaced_single.1 h.misplaced_single.2, ?_, ?_⟩
  · intro c text hp q hq name hname
    obtain ⟨part, hpart⟩ := exists_compileOps_of_mem_parts (hcompiled hp) hq
    exact keyName_of_compileOps (Delimiters.legal_of_validate c.valid) hpart hname
  · intro text hp q hq
    obtain ⟨part, hpart⟩ := exists_compileOps_of_mem_parts (hcompiled hp) hq
    exact ofOps?_of_compileOps hpart

/-- The alternation of a key and an index is compiled, and could have been built. -/
theorem obtainable_invariant_alternation :
    let p : Path := ⟨[.alternatives [[.key "a"], [.index (.one (.at 0))]]]⟩
    Path.ofText? "a|[0]" = .ok p ∧ p.Obtainable ∧ p.WellFormed ∧
      (∀ q ∈ p.parts, ∀ name, .key name ∈ q.ops → KeyName .standard name.toList) ∧
      ∀ q ∈ p.parts, Path.ofOps? q.ops = .ok q := by
  intro p
  have hkey : SpellsSteps .standard ['a'] [.key "a"] := by
    have hname : KeyName .standard ['a'] :=
      ⟨List.cons_ne_nil _ _, by decide, List.forall_mem_singleton.2 (by decide)⟩
    exact .cons blank_nil (.key hname) nofun (.nil blank_nil)
  have hindex : SpellsSteps .standard "[0]".toList [.index (.one (.at 0))] := by
    have hbound : SpellsBound .standard ['0'] (.at 0) :=
      .positive ⟨List.cons_ne_nil _ _, List.forall_mem_singleton.2 (by decide)⟩ (by decide)
    have htoken := SpellsStep.index (.one hbound (padded_self _)) (by decide)
    exact .cons blank_nil htoken nofun (.nil blank_nil)
  have hspells : Spells .standard "a|[0]".toList p.ops :=
    .alternation (.nil blank_nil) (.cons hkey (.last hindex)) (List.cons_ne_nil _ _)
      (by simp [StartsInside, Step.mayLead])
  have hsingle : ∀ op ∈ p.ops, op.Single := by
    simp [p, Op.Single, Step.isSingle, Index.isBounded, Index.one, Bound.isWildcard]
  have hcompile : Path.ofText? "a|[0]" = .ok p := map_eq_ok_iff.2
    ⟨p.ops, (compileOps_eq_ok_iff Delimiters.separable_standard).2 ⟨hspells, hsingle⟩, rfl⟩
  obtain ⟨hformed, hkeys, hchecked⟩ := obtainable_invariant (.compiled hcompile)
  exact ⟨hcompile, .compiled hcompile, hformed, hkeys .standard _ hcompile, hchecked _ hcompile⟩

/-! ### The check of keys -/

/-- A list of one key passes the checks exactly if the name can be the name of a key. -/
theorem ofOps?_key_isOk_iff {name : String} :
    (∃ p, Path.ofOps? [.key name] = .ok p) ↔ KeyName .standard name.toList := by
  have hfault : (Op.key name).fault? = none ↔ KeyName .standard name.toList := by
    rw [Op.key, Op.fault?_step_eq_none_iff]
    constructor
    · exact fun h => h name rfl
    · intro h name' hname
      obtain rfl := Step.key.inj hname
      exact h
  rw [← hfault]
  constructor
  · rintro ⟨p, hp⟩
    exact (ofOps?_eq_ok_iff.1 hp).2.1 _ List.mem_cons_self
  · exact fun h => ⟨_, ofOps?_eq_ok_iff.2 ⟨rfl, List.forall_mem_singleton.2 h, rfl⟩⟩

/-- A name that can be the name of a key is a text of this key alone. -/
theorem spells_key {name : String} (h : KeyName d name.toList) :
    Spells d name.toList [.key name] := by
  have htoken := SpellsStep.key h
  rw [String.ofList_toList] at htoken
  exact .steps htoken.spellsSteps

/-- **The check of keys is exact.** A list of one key passes the checks exactly if the name of the
key, as a text in the default delimiters, compiles to this key and nothing else. These are the names
that are not empty, have no blank at either end and hold no delimiter that stops a key. -/
theorem key_check_exact (name : String) :
    ((∃ p, Path.ofOps? [.key name] = .ok p) ↔ Path.ofText? name = .ok ⟨[.key name]⟩) ∧
      (Path.ofText? name = .ok ⟨[.key name]⟩ ↔ KeyName .standard name.toList) := by
  have hcompile : Path.ofText? name = .ok ⟨[.key name]⟩ ↔ KeyName .standard name.toList := by
    constructor
    · intro h
      obtain ⟨ops, hops, hpath⟩ := map_eq_ok_iff.1 h
      obtain rfl := Path.mk.inj hpath
      exact keyName_of_compileOps Delimiters.separable_standard.toLegal hops List.mem_cons_self
    · intro h
      refine (ofText?_eq_ok_iff_spells name ⟨[.key name]⟩).2 ⟨spells_key h, ?_⟩
      exact single_steps [.key name]
  exact ⟨ofOps?_key_isOk_iff.trans hcompile.symm, hcompile⟩

example : Path.ofOps? [.key "a]b:* '"] = .ok ⟨[.key "a]b:* '"]⟩ := rfl

end DocPath
