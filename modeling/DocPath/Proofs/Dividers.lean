import DocPath.Proofs.TextWalk

/-!
# DocPath.Proofs.Dividers

The dividers that the text of a built path has and the path has not. One stands between each two
adjacent keys, and between a key and an alternation directly after it (`Path.divided`); nothing else
is changed. Such dividers have no effect on a walk. If the alternation stands where its text shows
it (`InPlace`), the text compiles to exactly the divided path (`compile_divided`).
-/

namespace DocPath

open DocPath.Text

variable {steps path : List Step} {paths : List (List Step)} {ops : List Op}

/-! ### Divided paths -/

/-- A list with something more between each two adjacent items that join. -/
def insertBetween {α : Type} (joins : α → α → Bool) (x : α) : List α → List α
  | [] => []
  | [a] => [a]
  | a :: b :: rest => a :: ((if joins a b then [x] else []) ++ insertBetween joins x (b :: rest))

/-- The steps of an alternative with a divider between adjacent keys. -/
def divideSteps (steps : List Step) : List Step :=
  insertBetween (fun s t => s.isKey && t.isKey) .divider steps

/-- The operation with divided alternatives. -/
def Op.divided : Op → Op
  | step s => step s
  | alternatives paths => alternatives (paths.map divideSteps)

/-- Operations with a divider between adjacent keys, and between a key and an alternation directly
after it. -/
def divideOps (ops : List Op) : List Op :=
  insertBetween (fun op next => op.isKey && (next.isKey || next.isAlternatives)) .divider ops

/-- The path with all dividers that its text needs. -/
def Path.divided (p : Path) : Path := ⟨divideOps (p.ops.map Op.divided)⟩

theorem insertBetween_cons {α : Type} (joins : α → α → Bool) (x a : α) (rest : List α) :
    insertBetween joins x (a :: rest) =
      a :: ((if rest.head?.any (joins a) then [x] else []) ++ insertBetween joins x rest) := by
  cases rest with
  | nil => rfl
  | cons b rest => rfl

/-- Steps that say no more than their text are divided where they are spaced. -/
theorem divideSteps_eq_spaced (h : ∀ s ∈ steps, s.plain = s) :
    divideSteps steps = spaced false steps := by
  induction steps with
  | nil => rfl
  | cons s rest ih =>
    obtain ⟨hs, hrest⟩ := List.forall_mem_cons.1 h
    have hjoins : rest.head?.any (fun t => s.isKey && t.isKey) =
        (s.isKey && rest.head?.elim false Step.isKey) := by
      cases rest with
      | nil => exact (Bool.and_false _).symm
      | cons t rest => rfl
    have ih := ih hrest
    rw [divideSteps] at ih
    rw [divideSteps, insertBetween_cons, ih, hjoins, spaced, hs]

/-- Operations that begin with such steps have the spaced ones in front when they are divided. -/
theorem divideOps_eq_spaced (h : ∀ s ∈ steps, s.plain = s) :
    divideOps (steps.map .step ++ ops) =
      (spaced (ops.head?.any fun op => op.isKey || op.isAlternatives) steps).map .step ++
        divideOps ops := by
  induction steps with
  | nil => rfl
  | cons s rest ih =>
    obtain ⟨hs, hrest⟩ := List.forall_mem_cons.1 h
    have hjoins : ((rest.map Op.step ++ ops).head?.any fun next =>
        (Op.step s).isKey && (next.isKey || next.isAlternatives)) =
        (s.isKey &&
          rest.head?.elim (ops.head?.any fun op => op.isKey || op.isAlternatives) Step.isKey) := by
      rw [Op.isKey_step]
      cases rest with
      | nil => cases ops <;> simp
      | cons t rest => simp [Op.isKey_step, Op.isAlternatives]
    have ih := ih hrest
    rw [divideOps] at ih
    rw [List.map_cons, List.cons_append, divideOps, insertBetween_cons, ih, hjoins, spaced, hs,
      List.map_cons, List.map_append, List.cons_append, List.append_assoc]
    split <;> rfl

/-! ### Alternations that are read where they stand -/

/-- Whether an alternation after steps is read where it stands. -/
structure InPlace (steps : List Step) (paths : List (List Step)) : Prop where
  /-- The text of a single path has no mark of an alternation. -/
  many : 2 ≤ paths.length
  /-- The first path does not begin with what would be read in front of it. -/
  starts : ∀ path ∈ paths.head?, ∀ s ∈ path.head?,
    s ≠ .capture ∧ (∀ i, s ≠ .index i) ∧ ∀ v, s ≠ .default v
  /-- A key since the last divider stands directly before the alternation; one further ahead would
  be taken into the first path. -/
  keys : ∀ before name after, steps = before ++ .key name :: after → after = [] ∨ .divider ∈ after

theorem plain_mem_spaced {followed : Bool} {s : Step} (h : s ∈ steps) :
    s.plain ∈ spaced followed steps := by
  induction steps with
  | nil => cases h
  | cons t rest ih =>
    rw [spaced, List.mem_cons, List.mem_append]
    rcases List.mem_cons.1 h with rfl | h
    · exact Or.inl rfl
    · exact Or.inr (Or.inr (ih h))

/-- With a divider before the alternation, every key has one after it. -/
theorem settled_spaced (h : ∀ before name after, steps = before ++ .key name :: after →
    after = [] ∨ .divider ∈ after) : Settled (spaced true steps) := by
  induction steps with
  | nil => trivial
  | cons s rest ih =>
    have hrest := ih fun before name after heq => h (s :: before) name after (by rw [heq]; rfl)
    have hdivider : s.isKey = true → rest = [] ∨ .divider ∈ rest := by
      intro hkey
      cases s with
      | key name => exact h [] name rest rfl
      | _ => cases hkey
    rw [spaced]
    refine ⟨fun hkey => ?_, ?_⟩
    · rw [s.isKey_plain] at hkey
      rw [List.any_append, Bool.or_eq_true]
      rcases hdivider hkey with rfl | hmem
      · refine Or.inl ?_
        rw [hkey]
        rfl
      · exact Or.inr (List.any_eq_true.2 ⟨.divider, plain_mem_spaced hmem, rfl⟩)
    · split
      · exact ⟨fun hkey => absurd hkey Bool.false_ne_true, hrest⟩
      · exact hrest

/-- Nothing is taken from steps with a divider after each key. -/
theorem takenFrom_of_settled (h : Settled steps) : takenFrom steps = (steps, []) := by
  induction steps with
  | nil => rfl
  | cons s rest ih =>
    obtain ⟨hs, hrest⟩ := h
    have hstays : ¬ (s.isKey && !rest.any Step.isDivider) = true := by
      rw [Bool.and_eq_true, Bool.not_eq_true', not_and, Bool.not_eq_false]
      exact hs
    rw [takenFrom, if_neg hstays, ih hrest]

/-- In place, an alternation is read after the spaced steps, with its paths spaced. -/
theorem InPlace.reread_eq (h : InPlace steps paths) (hsingle : Op.Single (.alternatives paths)) :
    reread steps paths =
      (spaced true steps).map .step ++ [.alternatives (paths.map (spaced false))] := by
  match paths, h, hsingle with
  | [], h, _ => exact absurd h.many (by simp)
  | [_], h, _ => exact absurd h.many (by simp)
  | path :: path' :: rest, h, hsingle =>
    have hlead : ∀ s ∈ (spaced false path).head?, ¬ s.mayLead = true := by
      intro s hs
      rw [head?_spaced] at hs
      obtain ⟨t, ht, rfl⟩ := Option.map_eq_some_iff.1 hs
      obtain ⟨hcapture, hindex, hdefault⟩ := h.starts path rfl t ht
      have ht := (List.forall_mem_cons.1 hsingle).1 t (List.mem_of_mem_head? ht)
      rw [t.mayLead_plain]
      cases t with
      | capture => exact absurd rfl hcapture
      | index i => exact absurd rfl (hindex i)
      | default v => exact absurd rfl (hdefault v)
      | anyEntry => cases ht
      | _ => exact nofun
    have hwhile : (spaced false path).takeWhile Step.mayLead = [] ∧
        (spaced false path).dropWhile Step.mayLead = spaced false path := by
      cases hpath : spaced false path with
      | nil => exact ⟨rfl, rfl⟩
      | cons s rest =>
        have hs := hlead s (by rw [hpath]; rfl)
        exact ⟨List.takeWhile_cons_of_neg hs, List.dropWhile_cons_of_neg hs⟩
    rw [reread, takenFrom_of_settled (settled_spaced h.keys), List.nil_append, hwhile.1, hwhile.2,
      List.append_nil]
    · rfl
    · exact List.cons_ne_nil path' rest

/-! ### The text of a built path -/

/-- A divided path ends in divided alternatives if it ends in an alternation. -/
theorem divided_alternatives (hsteps : ∀ s ∈ steps, s.plain = s)
    (hpaths : ∀ path ∈ paths, ∀ s ∈ path, s.plain = s) :
    Path.divided ⟨steps.map .step ++ [.alternatives paths]⟩ =
      ⟨(spaced true steps).map .step ++ [.alternatives (paths.map (spaced false))]⟩ := by
  have hdivided : (steps.map Op.step ++ [Op.alternatives paths]).map Op.divided =
      steps.map Op.step ++ [.alternatives (paths.map divideSteps)] := by
    rw [List.map_append, List.map_map]
    rfl
  have hspaced : paths.map divideSteps = paths.map (spaced false) :=
    List.map_congr_left fun path hpath => divideSteps_eq_spaced (hpaths path hpath)
  rw [Path.divided, hdivided, divideOps_eq_spaced hsteps, hspaced]
  rfl

theorem divided_steps (hsteps : ∀ s ∈ steps, s.plain = s) :
    Path.divided ⟨steps.map .step⟩ = ⟨(spaced false steps).map .step⟩ := by
  have hdivided : (steps.map Op.step).map Op.divided = steps.map .step ++ [] := by
    rw [List.map_map, List.append_nil]
    rfl
  rw [Path.divided, hdivided, divideOps_eq_spaced hsteps]
  exact congrArg Path.mk (List.append_nil _)

/-- **Dividers inserted by rendering.** Of a path that the checks let through, with defaults that
compiled texts have, with no second bound at a single index, and with its alternation in place, the
text compiles to exactly the divided path, and this has the same walk of every document. -/
theorem compile_divided {drafts : List Draft} {p : Path} (h : Path.ofDrafts? drafts = .ok p)
    (hdefault : ∀ v, .default v ∈ p.steps → v.Compiled)
    (hindex : ∀ i, .index i ∈ p.steps → i.mode = .single → i.stop = .wildcard)
    (hplace : ∀ steps paths, p.ops = steps.map .step ++ [.alternatives paths] →
      InPlace steps paths) :
    Path.ofText? p.text = .ok p.divided ∧
      ∀ root, (Walk.start p.divided root).results = (Walk.start p root).results := by
  have hbuilt := Path.built_of_ofDrafts? h
  have hspelled := hbuilt.spelled hdefault
  have hlegal := Delimiters.separable_standard.toLegal
  have hplain : ∀ s ∈ p.steps, s.plain = s := by
    intro s hs
    cases s with
    | index i =>
      have hstop := hindex i hs
      rcases i with ⟨start, stop, _ | _⟩
      · exact congrArg (fun b => Step.index ⟨start, b, .single⟩) (hstop rfl).symm
      · rfl
    | _ => rfl
  obtain ⟨ops⟩ := p
  obtain ⟨steps, rfl | ⟨paths, rfl⟩⟩ := misplaced?_eq_none_iff.1 hbuilt.last
  · have hmem : ∀ s ∈ steps, s ∈ Path.steps ⟨steps.map .step⟩ := fun s hs =>
      List.mem_flatMap.2 ⟨.step s, List.mem_map_of_mem hs, List.mem_cons_self⟩
    rw [divided_steps fun s hs => hplain s (hmem s hs)]
    refine ⟨?_, fun root => ?_⟩
    · have hspells := spells_spaced hlegal fun s hs => hspelled s (hmem s hs)
      exact (ofText?_text_eq_ok_iff hspells).2 ⟨rfl, single_steps _⟩
    · rw [Walk.results_start, Walk.results_start, Path.meaning, Path.meaning, meaning_spaced_nil]
  · have hsingle := hbuilt.single _ (List.mem_append_right _ List.mem_cons_self)
    have hinplace := hplace steps paths rfl
    rw [divided_alternatives (fun s hs => hplain s (mem_steps_of_mem hs))
      fun path hpath s hs => hplain s (mem_steps_of_mem_path hpath hs)]
    refine ⟨?_, fun root => ?_⟩
    · have hspells := spells_reread hlegal (fun s hs => hspelled s (mem_steps_of_mem hs))
        fun path hpath s hs => hspelled s (mem_steps_of_mem_path hpath hs)
      rw [hinplace.reread_eq hsingle] at hspells
      refine (ofText?_text_eq_ok_iff hspells).2 ⟨rfl, ?_⟩
      refine List.forall_mem_append.2 ⟨single_steps _, List.forall_mem_singleton.2 ?_⟩
      intro path' hpath'
      obtain ⟨path, hpath, rfl⟩ := List.mem_map.1 hpath'
      exact single_spaced (hsingle path hpath)
    · rw [Walk.results_start, Walk.results_start, Path.meaning, Path.meaning, meaning_spaced]
      refine congrArg upToError (meaning_append_of_eq _ fun v trail => ?_)
      exact meaning_alternatives_congr fun v trail => runAlternatives_spaced paths v trail

/-- Three keys and an alternation, with one divider between them, are written with all four. -/
theorem compile_divided_keys :
    let drafts := [.step (.key "a]"), .step (.key "b"), .step .divider, .step (.key "c"),
      Draft.alternatives [[.step (.key "x"), .step (.key "y")], [.step (.key "z")]]]
    let p : Path := ⟨[.key "a]", .key "b", .divider, .key "c",
      .alternatives [[.key "x", .key "y"], [.key "z"]]]⟩
    let q : Path := ⟨[.key "a]", .divider, .key "b", .divider, .key "c", .divider,
      .alternatives [[.key "x", .divider, .key "y"], [.key "z"]]]⟩
    Path.ofDrafts? drafts = .ok p ∧ p.text = "a].b.c.x,y|z" ∧ Path.ofText? p.text = .ok q ∧
      ∀ root, (Walk.start q root).results = (Walk.start p root).results := by
  intro drafts p q
  have hp : Path.ofDrafts? drafts = .ok p := by rfl
  have hdefault : ∀ v, .default v ∈ p.steps → v.Compiled := by
    simp [p, Path.steps, Op.steps, Op.key, Op.divider]
  have hindex : ∀ i, .index i ∈ p.steps → i.mode = .single → i.stop = .wildcard := by
    simp [p, Path.steps, Op.steps, Op.key, Op.divider]
  have hplace : ∀ steps paths, p.ops = steps.map .step ++ [.alternatives paths] →
      InPlace steps paths := by
    intro steps paths hops
    have hops : [.key "a]", .key "b", .divider, .key "c"].map Op.step ++ _ = _ := hops
    obtain ⟨rfl, rfl⟩ := alternatives_inj hops
    refine ⟨by decide, by simp, fun before name after heq => ?_⟩
    simp only [List.cons_eq_append_iff, List.nil_eq_append_iff, List.cons.injEq] at heq
    grind
  obtain ⟨hcompile, hwalk⟩ := compile_divided hp hdefault hindex hplace
  exact ⟨hp, by rfl, hcompile, hwalk⟩

end DocPath
