import DocPath.Proofs.Rereading
import DocPath.Proofs.SameWalk
import DocPath.Proofs.WalkMeaning

/-!
# DocPath.Proofs.TextWalk

When the text of a built path keeps its walk. Without an alternation it always does: the text says
all that matters of steps (`exists_text_walk_of_steps`). With one it depends on the steps around the
place where the alternation begins (`Rereads`), and the condition is exact (`text_keeps_walk_iff`):
where it fails, the text does not compile, or there is a document for which the walks differ.
-/

namespace DocPath

open DocPath.Text

variable {v : Value} {trail : List Value} {steps path : List Step} {paths : List (List Step)}
  {ops ops' : List Op}

/-! ### Operations that mean the same -/

theorem sameWalk_congr {ops₁ ops₁' : List Op}
    (h : ∀ root, meaning root [] ops = meaning root [] ops₁)
    (h' : ∀ root, meaning root [] ops' = meaning root [] ops₁') :
    SameWalk ops ops' ↔ SameWalk ops₁ ops₁' :=
  forall_congr' fun root => by rw [h, h']

theorem meaning_alternatives_congr {paths' : List (List Step)}
    (h : ∀ v trail, runAlternatives v trail paths = runAlternatives v trail paths') :
    meaning v trail [.alternatives paths] = meaning v trail [.alternatives paths'] := by
  rw [meaning_alternation, meaning_alternation, h]

theorem mem_of_default_mem_spaced (followed : Bool) {d : Default}
    (h : .default d ∈ spaced followed steps) : .default d ∈ steps := by
  obtain h | ⟨t, ht, h⟩ := mem_spaced h
  · cases h
  · cases t with
    | default => exact h ▸ ht
    | _ => cases h

/-! ### The condition -/

/-- Whether the text of steps and an alternation after them keeps the walk. -/
def Rereads (steps : List Step) : List (List Step) → Prop
  -- Nothing is written for an alternation of no path.
  | [] => ¬ Opens steps
  -- One path is read as the steps it has, and gives a sequence only if something is captured.
  | [path] => Opens steps → Walkable steps path ∧ ∃ s ∈ steps ++ path, s.isCapture = true
  | path :: _ =>
    match takenFrom (spaced true steps) with
    -- What the first path begins with may be read in front of the alternation.
    | (_, []) => Opens steps → Walkable steps (path.takeWhile Step.mayLead)
    -- The first path takes in steps from in front of it.
    | (stay, taken) => ¬ Opens stay ∧ ∀ s ∈ taken, s.isSingle = true

/-- An alternation whose first path takes nothing in gives the same where it is read, exactly if
what the first path begins with can be walked. -/
theorem sameWalk_reread_lead_iff {path' : List Step} {rest : List (List Step)}
    (hsteps : ∀ d, .default d ∈ steps → d.value ≠ .null)
    (hdefault : ∀ d, .default d ∈ path → d.value ≠ .null)
    (hsingle : ∀ s ∈ path, s.isSingle = true) (htaken : (takenFrom (spaced true steps)).2 = []) :
    SameWalk (reread steps (path :: path' :: rest))
        (steps.map .step ++ [.alternatives (path :: path' :: rest)]) ↔
      (Opens steps → Walkable steps (path.takeWhile Step.mayLead)) := by
  have hsplit := List.takeWhile_append_dropWhile (p := Step.mayLead) (l := path)
  have hlead : ∀ s ∈ path.takeWhile Step.mayLead, s ∈ path :=
    fun s hs => (List.takeWhile_sublist _).subset hs
  have hstay : (takenFrom (spaced true steps)).1 = spaced true steps := by
    have happend := takenFrom_append (spaced true steps)
    rwa [htaken, List.append_nil] at happend
  rw [← sameWalk_lead_iff hsteps (fun d hd => hdefault d (hlead _ hd))
    (fun s hs => hsingle s (hlead s hs)) fun s hs => List.mem_takeWhile_imp hs]
  refine sameWalk_congr (fun root => ?_) fun root => by rw [hsplit]
  rw [reread, htaken, hstay, List.nil_append, takeWhile_spaced, dropWhile_spaced, List.map_append,
    List.append_assoc, meaning_spaced]
  · refine meaning_append_of_eq _ fun v trail => ?_
    rw [meaning_plain]
    refine meaning_append_of_eq _ fun v trail => meaning_alternatives_congr fun v trail => ?_
    exact runAlternatives_spaced (path.dropWhile Step.mayLead :: path' :: rest) v trail
  · exact List.cons_ne_nil path' rest

/-- An alternation whose first path takes something in gives the same exactly if it never gives
anything. -/
theorem sameWalk_reread_taken_iff {path' : List Step} {rest : List (List Step)}
    (hsteps : ∀ d, .default d ∈ steps → d.value ≠ .null)
    (htaken : (takenFrom (spaced true steps)).2 ≠ []) :
    SameWalk (reread steps (path :: path' :: rest))
        (steps.map .step ++ [.alternatives (path :: path' :: rest)]) ↔
      ¬ Opens (takenFrom (spaced true steps)).1 := by
  have hsplit := takenFrom_append (spaced true steps)
  obtain ⟨hlead, hbody⟩ := span_taken htaken (spaced false path)
  have hstay : ∀ d, .default d ∈ (takenFrom (spaced true steps)).1 → d.value ≠ .null := by
    intro d hd
    refine hsteps d (mem_of_default_mem_spaced true ?_)
    rw [← hsplit]
    exact List.mem_append_left _ hd
  have hkey : (takenFrom (spaced true steps)).2.countP Step.isKey ≠ 0 := by
    obtain ⟨s, taken, hs⟩ := List.exists_cons_of_ne_nil htaken
    have hs' := isKey_of_mem_head?_taken (spaced true steps) s (by rw [hs]; rfl)
    rw [hs, List.countP_cons, if_pos hs']
    exact Nat.succ_ne_zero _
  rw [← sameWalk_taken_iff path hstay hkey (List.cons_ne_nil path' rest)]
  refine sameWalk_congr (fun root => ?_) fun root => ?_
  · rw [reread, hlead, hbody, List.append_nil]
    · refine meaning_append_of_eq _ fun v trail => meaning_alternatives_congr fun v trail => ?_
      refine runAlternatives_cons_congr (fun trail => ?_) fun trail => ?_
      · rw [runSteps_append, runSteps_append, runSteps_spaced]
      · exact runAlternatives_spaced (path' :: rest) v trail
    · exact List.cons_ne_nil path' rest
  · rw [← List.append_assoc, ← List.map_append, hsplit, meaning_spaced]

/-- What the text of steps and an alternation is read as compiles and keeps the walk exactly under
the condition. -/
theorem rereads_iff (hsteps : ∀ d, .default d ∈ steps → d.value ≠ .null)
    (hdefault : ∀ path ∈ paths, ∀ d, .default d ∈ path → d.value ≠ .null)
    (hsingle : Op.Single (.alternatives paths)) :
    (∀ op ∈ reread steps paths, op.Single) ∧
        SameWalk (reread steps paths) (steps.map .step ++ [.alternatives paths]) ↔
      Rereads steps paths := by
  match paths, hdefault, hsingle with
  | [], _, _ =>
    rw [Rereads, reread, ← sameWalk_none_iff hsteps, and_iff_right (single_steps _)]
    refine sameWalk_congr (fun root => ?_) fun _ => rfl
    rw [← meaning_spaced true, List.append_nil]
  | [path], hdefault, hsingle =>
    have hpath := List.forall_mem_singleton.1 hdefault
    rw [Rereads, reread, ← sameWalk_one_iff hsteps hpath (List.forall_mem_singleton.1 hsingle),
      and_iff_right (single_steps _)]
    refine sameWalk_congr (fun root => ?_) fun _ => rfl
    rw [List.map_append, meaning_spaced]
    exact meaning_append_of_eq _ fun v trail => meaning_spaced_nil false path
  | path :: path' :: rest, hdefault, hsingle =>
    have hpath := (List.forall_mem_cons.1 hdefault).1
    rw [single_reread_iff hsingle, Rereads]
    · split
      next stay h =>
        have htaken : (takenFrom (spaced true steps)).2 = [] := by rw [h]
        rw [sameWalk_reread_lead_iff hsteps hpath (List.forall_mem_cons.1 hsingle).1 htaken, htaken]
        exact and_iff_right (List.forall_mem_nil _)
      next stay taken hne h =>
        have htaken : (takenFrom (spaced true steps)).2 ≠ [] := by
          rw [h]
          exact hne
        rw [sameWalk_reread_taken_iff hsteps htaken, h, and_comm]
    · exact List.cons_ne_nil path' rest

/-! ### Whole paths -/

/-- Whether the text of a path compiles and keeps the walk says what the text spells. -/
theorem exists_text_walk_iff {p : Path} (h : Spells .standard (renderOps .standard p.ops) ops) :
    (∃ q, Path.ofText? p.text = .ok q ∧
      ∀ root, (Walk.start q root).results = (Walk.start p root).results) ↔
      (∀ op ∈ ops, op.Single) ∧ SameWalk ops p.ops := by
  have hresults : ∀ q : Path,
      (∀ root, (Walk.start q root).results = (Walk.start p root).results) ↔
        SameWalk q.ops p.ops := by
    intro q
    refine forall_congr' fun root => ?_
    rw [Walk.results_start, Walk.results_start, Path.meaning, Path.meaning]
  constructor
  · intro h
    obtain ⟨q, hq, hwalk⟩ := h
    obtain ⟨rfl, hsingle⟩ := (ofText?_text_eq_ok_iff h).1 hq
    exact ⟨hsingle, (hresults _).1 hwalk⟩
  · intro h
    obtain ⟨hsingle, hwalk⟩ := h
    exact ⟨⟨ops⟩, (ofText?_text_eq_ok_iff h).2 ⟨rfl, hsingle⟩, (hresults _).2 hwalk⟩

/-- The text of steps alone always compiles and keeps the walk. -/
theorem exists_text_walk_of_steps (h : ∀ s ∈ steps, Spelled .standard s.plain) :
    ∃ q, Path.ofText? (Path.text ⟨steps.map .step⟩) = .ok q ∧
      ∀ root, (Walk.start q root).results = (Walk.start ⟨steps.map .step⟩ root).results := by
  have hspells := spells_spaced Delimiters.separable_standard.toLegal h
  refine (exists_text_walk_iff hspells).2 ⟨single_steps _, fun root => ?_⟩
  rw [meaning_spaced_nil]

/-- Steps and the alternation after them can be told from their operations. -/
theorem alternatives_inj {steps' : List Step} {paths' : List (List Step)}
    (h : steps.map Op.step ++ [.alternatives paths] = steps'.map .step ++ [.alternatives paths']) :
    steps = steps' ∧ paths = paths' := by
  obtain ⟨hsteps, hpaths⟩ := List.append_inj' h rfl
  exact ⟨(List.map_inj_right fun _ _ h => Op.step.inj h).1 hsteps,
    Op.alternatives.inj (List.cons.inj hpaths).1⟩

theorem steps_ne_alternatives {steps' : List Step} :
    steps.map Op.step ≠ steps'.map .step ++ [.alternatives paths] := by
  intro h
  have halternatives : .alternatives paths ∈ steps.map Op.step := by
    rw [h]
    exact List.mem_append_right _ List.mem_cons_self
  obtain ⟨s, -, hs⟩ := List.mem_map.1 halternatives
  cases hs

theorem mem_steps_of_mem {s : Step} (h : s ∈ steps) :
    s ∈ Path.steps ⟨steps.map .step ++ ops⟩ :=
  List.mem_flatMap.2 ⟨.step s, List.mem_append_left _ (List.mem_map_of_mem h), List.mem_cons_self⟩

theorem mem_steps_of_mem_path {s : Step} (hpath : path ∈ paths) (h : s ∈ path) :
    s ∈ Path.steps ⟨steps.map .step ++ [.alternatives paths]⟩ :=
  List.mem_flatMap.2 ⟨.alternatives paths, List.mem_append_right _ List.mem_cons_self,
    List.mem_flatten.2 ⟨path, hpath, h⟩⟩

/-- **When the text of a built path keeps its walk.** Of all paths that the checks let through, with
defaults that compiled texts have, the text compiles to a path with the same walk of every document
exactly if the path has no alternation, or one that keeps the walk where it is read. -/
theorem text_keeps_walk_iff {drafts : List Draft} {p : Path} (h : Path.ofDrafts? drafts = .ok p)
    (hdefault : ∀ v, .default v ∈ p.steps → v.Compiled) :
    (∃ q, Path.ofText? p.text = .ok q ∧
      ∀ root, (Walk.start q root).results = (Walk.start p root).results) ↔
      ∀ steps paths, p.ops = steps.map .step ++ [.alternatives paths] → Rereads steps paths := by
  have hbuilt := Path.built_of_ofDrafts? h
  have hspelled := hbuilt.spelled hdefault
  have hvalue : ∀ v, .default v ∈ p.steps → v.value ≠ .null :=
    fun v hv => (Default.compiled_iff.1 (hdefault v hv)).value_ne_null
  obtain ⟨ops⟩ := p
  obtain ⟨steps, rfl | ⟨paths, rfl⟩⟩ := misplaced?_eq_none_iff.1 hbuilt.last
  · refine iff_of_true (exists_text_walk_of_steps fun s hs => hspelled s ?_) fun _ _ heq => ?_
    · rw [← List.append_nil (steps.map Op.step)]
      exact mem_steps_of_mem hs
    · exact absurd heq steps_ne_alternatives
  · have hsingle := hbuilt.single _ (List.mem_append_right _ List.mem_cons_self)
    have hspells := spells_reread Delimiters.separable_standard.toLegal
      (fun s hs => hspelled s (mem_steps_of_mem hs))
      fun path hpath s hs => hspelled s (mem_steps_of_mem_path hpath hs)
    rw [exists_text_walk_iff hspells, rereads_iff (fun d hd => hvalue d (mem_steps_of_mem hd))
      (fun path hpath d hd => hvalue d (mem_steps_of_mem_path hpath hd)) hsingle]
    constructor
    · intro hrereads steps' paths' heq
      obtain ⟨rfl, rfl⟩ := alternatives_inj heq
      exact hrereads
    · exact fun hrereads => hrereads steps paths rfl

/-- A key and a default in front of an alternation are taken into its first path: the text
`a<d:str>b|c` is read as an alternation of `a<d:str>b` and `c`. -/
theorem text_keeps_walk_not_taken :
    let d : Default := ⟨.string "d", .str, "d"⟩
    let drafts := [.step (.key "a"), .step (.default d),
      Draft.alternatives [[.step (.key "b")], [.step (.key "c")]]]
    let p : Path := ⟨[.key "a", .step (.default d), .alternatives [[.key "b"], [.key "c"]]]⟩
    Path.ofDrafts? drafts = .ok p ∧ (∀ v, .default v ∈ p.steps → v.Compiled) ∧
      ¬ ∃ q, Path.ofText? p.text = .ok q ∧
        ∀ root, (Walk.start q root).results = (Walk.start p root).results := by
  intro d drafts p
  have hp : Path.ofDrafts? drafts = .ok p := by rfl
  have hd : d.Compiled := by
    have hinside : SpellsDefault .standard "d:str".toList d :=
      .mk (by decide : trim ['d'] = ['d']) (padded_self _) (padded_self _) rfl
    have hclosing : closing? '>' true none "d:str>".toList = some ("d:str".toList, []) := by rfl
    exact Default.compiled_iff.2 ⟨_, .default hinside (closing?_quoted_iff.1 hclosing).2⟩
  have hdefault : ∀ v, .default v ∈ p.steps → v.Compiled := by
    intro v hv
    have hv : v = d := by simpa [p, Path.steps, Op.steps, Op.key] using hv
    exact hv ▸ hd
  refine ⟨hp, hdefault, fun h => ?_⟩
  have hrereads := (text_keeps_walk_iff hp hdefault).1 h [.key "a", .default d] _ rfl
  have hnever : ¬ Opens [] := hrereads.1
  exact hnever nofun

end DocPath
