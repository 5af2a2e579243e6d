import DocPath.Proofs.Grammar
import Mathlib.Data.List.Forall2

/-!
# DocPath.Proofs.Building

What the checks of built paths let through. An alternation is made of paths whose operations are
steps that give exactly one value each (`ofPaths?_eq_ok_iff`). A path is built from some drafts
exactly if its keys are names of keys, its alternations hold such steps, and an alternation is its
last operation if there is one (`exists_ofDrafts?_iff`).
-/

namespace DocPath

/-! ### Results -/

theorem bind_eq_ok_iff {α β ε : Type} {x : Except ε α} {f : α → Except ε β} {b : β} :
    x >>= f = .ok b ↔ ∃ a, x = .ok a ∧ f a = .ok b := by
  cases x with
  | error e => exact ⟨nofun, nofun⟩
  | ok a =>
    constructor
    · exact fun h => ⟨a, rfl, h⟩
    · intro h
      obtain ⟨a', ha, h⟩ := h
      obtain rfl := Except.ok.inj ha
      exact h

theorem map_eq_ok_iff {α β ε : Type} {x : Except ε α} {f : α → β} {b : β} :
    x.map f = .ok b ↔ ∃ a, x = .ok a ∧ f a = b := by
  cases x with
  | error e => exact ⟨nofun, nofun⟩
  | ok a =>
    constructor
    · exact fun h => ⟨a, rfl, Except.ok.inj h⟩
    · intro h
      obtain ⟨a', ha, rfl⟩ := h
      obtain rfl := Except.ok.inj ha
      rfl

theorem exists_map_eq_ok_iff {α β ε : Type} {x : Except ε α} {f : α → β} :
    (∃ b, x.map f = .ok b) ↔ ∃ a, x = .ok a := by
  simp [map_eq_ok_iff]

theorem mapM_eq_ok_iff {α β ε : Type} {f : α → Except ε β} {xs : List α} {ys : List β} :
    xs.mapM f = .ok ys ↔ List.Forall₂ (fun x y => f x = .ok y) xs ys := by
  induction xs generalizing ys with
  | nil =>
    show Except.ok [] = Except.ok ys ↔ _
    rw [Except.ok.injEq, List.forall₂_nil_left_iff, eq_comm]
  | cons x xs ih =>
    rw [List.mapM_cons, bind_eq_ok_iff, List.forall₂_cons_left_iff]
    constructor
    · intro h
      obtain ⟨y, hy, h⟩ := h
      obtain ⟨ys', hys', h⟩ := bind_eq_ok_iff.1 h
      obtain rfl := Except.ok.inj h
      exact ⟨y, ys', hy, ih.1 hys', rfl⟩
    · intro h
      obtain ⟨y, ys', hy, hys, rfl⟩ := h
      exact ⟨y, hy, bind_eq_ok_iff.2 ⟨ys', ih.2 hys, rfl⟩⟩

theorem bind_eq_error_iff {α β ε : Type} {x : Except ε α} {f : α → Except ε β} {e : ε} :
    x >>= f = .error e ↔ x = .error e ∨ ∃ a, x = .ok a ∧ f a = .error e := by
  cases x with
  | error e' => simp [bind, Except.bind]
  | ok a => simp [bind, Except.bind]

theorem map_eq_error_iff {α β ε : Type} {x : Except ε α} {f : α → β} {e : ε} :
    x.map f = .error e ↔ x = .error e := by
  cases x <;> simp [Except.map]

/-- Items have results together if each has one. -/
theorem exists_mapM_eq_ok_iff {α β ε : Type} {f : α → Except ε β} {xs : List α} :
    (∃ ys, xs.mapM f = .ok ys) ↔ ∀ x ∈ xs, ∃ y, f x = .ok y := by
  simp only [mapM_eq_ok_iff]
  induction xs with
  | nil => simp
  | cons x xs ih =>
    rw [List.forall_mem_cons, ← ih]
    simp only [List.forall₂_cons_left_iff]
    constructor
    · intro h
      obtain ⟨_, y, ys, hy, hys, rfl⟩ := h
      exact ⟨⟨y, hy⟩, ys, hys⟩
    · intro h
      obtain ⟨⟨y, hy⟩, ys, hys⟩ := h
      exact ⟨_, y, ys, hy, hys, rfl⟩

/-- If items fail together, one of them fails so. -/
theorem exists_of_mapM_eq_error {α β ε : Type} {f : α → Except ε β} {xs : List α} {e : ε}
    (h : xs.mapM f = .error e) : ∃ x ∈ xs, f x = .error e := by
  induction xs with
  | nil => cases h
  | cons x xs ih =>
    rw [List.mapM_cons, bind_eq_error_iff] at h
    rcases h with h | ⟨y, -, h⟩
    · exact ⟨x, List.mem_cons_self, h⟩
    · rw [bind_eq_error_iff] at h
      rcases h with h | ⟨ys, -, h⟩
      · obtain ⟨x', hx', h⟩ := ih h
        exact ⟨x', List.mem_cons_of_mem x hx', h⟩
      · cases h

/-! ### Alternations -/

/-- Lists related item by item, where an item is the image of the other one and nothing else. -/
theorem forall₂_image_iff {α β : Type} {R : α → β → Prop} {f : β → α} {P : β → Prop}
    (h : ∀ x y, R x y ↔ x = f y ∧ P y) {xs : List α} {ys : List β} :
    List.Forall₂ R xs ys ↔ xs = ys.map f ∧ ∀ y ∈ ys, P y := by
  induction ys generalizing xs with
  | nil =>
    rw [List.forall₂_nil_right_iff]
    exact ⟨fun h => ⟨h, nofun⟩, fun h => h.1⟩
  | cons y ys ih =>
    rw [List.forall₂_cons_right_iff]
    constructor
    · intro h
      obtain ⟨x, xs', hx, hxs, rfl⟩ := h
      obtain ⟨rfl, hy⟩ := (h x y).1 hx
      obtain ⟨rfl, hys⟩ := ih.1 hxs
      exact ⟨rfl, List.forall_mem_cons.2 ⟨hy, hys⟩⟩
    · intro h
      obtain ⟨rfl, hall⟩ := h
      obtain ⟨hy, hys⟩ := List.forall_mem_cons.1 hall
      exact ⟨_, _, (h _ y).2 ⟨rfl, hy⟩, ih.2 ⟨rfl, hys⟩, rfl⟩

/-- Whatever is related to a list is related item by item. -/
theorem exists_of_forall₂ {α β : Type} {R : α → β → Prop} {xs : List α} {ys : List β} {y : β}
    (h : List.Forall₂ R xs ys) (hy : y ∈ ys) : ∃ x, R x y := by
  induction h with
  | nil => cases hy
  | @cons x y' xs ys hx _ ih =>
    rcases List.mem_cons.1 hy with rfl | hy
    · exact ⟨x, hx⟩
    · exact ih hy

/-- The operations of alternatives are the steps that give exactly one value. -/
theorem Op.toStep?_eq_ok_iff {path : String} {op : Op} {s : Step} :
    op.toStep? path = .ok s ↔ op = .step s ∧ s.isSingle = true := by
  cases op with
  | alternatives => simp [Op.toStep?]
  | step t =>
    cases t with
    | anyEntry =>
      simp only [Op.toStep?, reduceCtorEq, false_iff, not_and, Op.step.injEq]
      intro heq
      subst heq
      simp [Step.isSingle]
    | index i =>
      simp only [Op.toStep?, Op.step.injEq]
      split
      next hbounded =>
        rw [Except.ok.injEq]
        constructor
        · intro heq
          subst heq
          exact ⟨rfl, hbounded⟩
        · exact fun h => h.1
      next hbounded =>
        simp only [reduceCtorEq, false_iff, not_and]
        intro heq
        subst heq
        exact hbounded
    | _ =>
      simp only [Op.toStep?, Except.ok.injEq, Op.step.injEq]
      constructor
      · intro heq
        subst heq
        exact ⟨rfl, rfl⟩
      · exact fun h => h.1

/-- The path of the steps. -/
def Path.ofSteps (steps : List Step) : Path := ⟨steps.map .step⟩

theorem Path.toSteps?_eq_ok_iff {p : Path} {steps : List Step} :
    p.toSteps? = .ok steps ↔ p = Path.ofSteps steps ∧ ∀ s ∈ steps, s.isSingle = true := by
  obtain ⟨ops⟩ := p
  have hstep : ∀ op s, Op.toStep? (Path.text ⟨ops⟩) op = .ok s ↔
      op = .step s ∧ s.isSingle = true := fun _ _ => Op.toStep?_eq_ok_iff
  rw [Path.toSteps?, mapM_eq_ok_iff, forall₂_image_iff hstep, Path.ofSteps, Path.mk.injEq]

/-- An alternation is built exactly between paths of steps that give one value each. -/
theorem ofPaths?_eq_ok_iff {ps : List Path} {op : Op} : Op.ofPaths? ps = .ok op ↔
    ∃ paths, op = .alternatives paths ∧ ps = paths.map Path.ofSteps ∧ op.Single := by
  have hpath : ∀ (p : Path) steps, p.toSteps? = .ok steps ↔
      p = Path.ofSteps steps ∧ ∀ s ∈ steps, s.isSingle = true :=
    fun _ _ => Path.toSteps?_eq_ok_iff
  rw [Op.ofPaths?, map_eq_ok_iff]
  constructor
  · intro h
    obtain ⟨paths, hpaths, rfl⟩ := h
    exact ⟨paths, rfl, (forall₂_image_iff hpath).1 (mapM_eq_ok_iff.1 hpaths)⟩
  · intro h
    obtain ⟨paths, rfl, h⟩ := h
    exact ⟨paths, mapM_eq_ok_iff.2 ((forall₂_image_iff hpath).2 h), rfl⟩

/-! ### Whole paths -/

/-- A name has no fault exactly if texts can spell its key. -/
theorem keyFault?_eq_none_iff {d : Delimiters} {name : List Char} :
    keyFault? d name = none ↔ KeyName d name := by
  rw [keyFault?]
  split
  next h =>
    refine ⟨nofun, fun hname => ?_⟩
    exact absurd h (not_or.2 ⟨hname.ne_nil, not_not.2 hname.trimmed⟩)
  next h =>
    obtain ⟨hne, htrim⟩ := not_or.1 h
    rw [Option.map_eq_none_iff, List.find?_eq_none]
    constructor
    · intro hstop
      exact ⟨hne, not_not.1 htrim, fun c hc => by simpa using hstop c hc⟩
    · intro hname c hc
      simpa using hname.not_stop c hc

/-- The steps of an operation: itself, or those of all alternatives. -/
def Op.steps : Op → List Step
  | step s => [s]
  | alternatives paths => paths.flatten

/-- The steps of a path, those of its alternatives included. -/
def Path.steps (p : Path) : List Step := p.ops.flatMap Op.steps

/-- What the checks of a built path make sure of. -/
structure Path.Built (p : Path) : Prop where
  keys : ∀ name, .key name ∈ p.steps → KeyName .standard name.toList
  single : ∀ op ∈ p.ops, op.Single
  last : misplaced? p.ops = none

/-- No alternation is misplaced exactly if there are only steps, or steps and one alternation after
them. -/
theorem misplaced?_eq_none_iff {ops : List Op} : misplaced? ops = none ↔
    ∃ steps : List Step, ops = steps.map .step ∨
      ∃ paths, ops = steps.map .step ++ [.alternatives paths] := by
  fun_induction misplaced? ops with
  | case1 => exact ⟨fun _ => ⟨[], Or.inl rfl⟩, fun _ => rfl⟩
  | case2 op =>
    refine ⟨fun _ => ?_, fun _ => rfl⟩
    cases op with
    | step s => exact ⟨[s], Or.inl rfl⟩
    | alternatives paths => exact ⟨[], Or.inr ⟨paths, rfl⟩⟩
  | case3 op rest hrest halternatives =>
    refine ⟨nofun, ?_⟩
    intro ⟨steps, hsteps⟩
    cases steps with
    | nil =>
      obtain h | ⟨paths, h⟩ := hsteps
      · cases h
      · exact absurd (List.cons.inj h).2 hrest
    | cons s steps =>
      obtain h | ⟨paths, h⟩ := hsteps <;>
      · obtain rfl := (List.cons.inj h).1
        simp [Op.isAlternatives] at halternatives
  | case4 op rest hrest halternatives ih =>
    rw [ih]
    cases op with
    | alternatives => simp [Op.isAlternatives] at halternatives
    | step s =>
      constructor
      · rintro ⟨steps, rfl | ⟨paths, rfl⟩⟩
        · exact ⟨s :: steps, Or.inl rfl⟩
        · exact ⟨s :: steps, Or.inr ⟨paths, rfl⟩⟩
      · intro h
        obtain ⟨steps, hsteps⟩ := h
        cases steps with
        | nil => obtain h | ⟨paths, h⟩ := hsteps <;> cases h
        | cons t steps =>
          obtain h | ⟨paths, h⟩ := hsteps
          · exact ⟨steps, Or.inl (List.cons.inj h).2⟩
          · exact ⟨steps, Or.inr ⟨paths, (List.cons.inj h).2⟩⟩

theorem ofOps?_eq_ok_iff {ops : List Op} {p : Path} : Path.ofOps? ops = .ok p ↔
    p = ⟨ops⟩ ∧ (∀ op ∈ ops, op.fault? = none) ∧ misplaced? ops = none := by
  rw [Path.ofOps?, ← List.findSome?_eq_none_iff]
  cases hfault : ops.findSome? Op.fault? with
  | some e => simp
  | none =>
    cases hmisplaced : misplaced? ops with
    | some op => simp
    | none => simp [eq_comm]

theorem Op.fault?_step_eq_none_iff {s : Step} : (Op.step s).fault? = none ↔
    ∀ name, s = .key name → KeyName .standard name.toList := by
  cases s with
  | key name =>
    rw [Op.fault?, Option.map_eq_none_iff, keyFault?_eq_none_iff]
    constructor
    · intro h name' hname
      obtain rfl := Step.key.inj hname
      exact h
    · exact fun h => h name rfl
  | _ => exact ⟨fun _ => nofun, fun _ => rfl⟩

/-! ### Drafts -/

namespace Draft

/-- The draft of an operation. -/
def ofOp : Op → Draft
  | .step s => .step s
  | .alternatives paths => .alternatives (paths.map (·.map .step))

theorem toOps?_map_step (steps : List Step) :
    toOps? (steps.map .step) = .ok (steps.map .step) := by
  induction steps with
  | nil => rfl
  | cons s steps ih =>
    rw [List.map_cons, toOps?, ih]
    rfl

/-- Operations are built one by one. -/
theorem toOps?_eq_mapM (drafts : List Draft) : toOps? drafts = drafts.mapM toOp? := by
  induction drafts with
  | nil => rfl
  | cons draft drafts ih =>
    rw [toOps?, List.mapM_cons, ih]

/-- So are the paths of an alternation. -/
theorem toPaths?_eq_mapM (drafts : List (List Draft)) :
    toPaths? drafts = drafts.mapM Path.ofDrafts? := by
  induction drafts with
  | nil => rfl
  | cons draft drafts ih =>
    rw [toPaths?, List.mapM_cons, ih, Path.ofDrafts?, bind_assoc]

/-- What the operation of a draft is: an alternation in it holds single steps, with the names of
keys for its keys. -/
theorem sound_of_toOp? {draft : Draft} {op : Op} (h : toOp? draft = .ok op)
    (hfault : op.fault? = none) :
    op.Single ∧ ∀ name, .key name ∈ op.steps → KeyName .standard name.toList := by
  cases draft with
  | step s =>
    obtain rfl := Except.ok.inj h
    refine ⟨trivial, fun name hname => ?_⟩
    exact Op.fault?_step_eq_none_iff.1 hfault name (List.mem_singleton.1 hname).symm
  | alternatives drafts =>
    obtain ⟨ps, hps, hop⟩ := bind_eq_ok_iff.1 h
    rw [toPaths?_eq_mapM] at hps
    obtain ⟨paths, rfl, rfl, hsingle⟩ := ofPaths?_eq_ok_iff.1 hop
    refine ⟨hsingle, fun name hname => ?_⟩
    obtain ⟨path, hpath, hname⟩ := List.mem_flatten.1 hname
    obtain ⟨draft, hdraft⟩ :=
      exists_of_forall₂ (mapM_eq_ok_iff.1 hps) (List.mem_map_of_mem hpath)
    obtain ⟨ops, -, hpath⟩ := bind_eq_ok_iff.1 hdraft
    obtain ⟨hops, hfaults, -⟩ := ofOps?_eq_ok_iff.1 hpath
    obtain rfl : path.map .step = ops := (Path.mk.inj hops)
    exact Op.fault?_step_eq_none_iff.1 (hfaults _ (List.mem_map_of_mem hname)) name rfl

theorem toPaths?_map_step {paths : List (List Step)}
    (h : ∀ path ∈ paths, ∀ s ∈ path, (Op.step s).fault? = none) :
    toPaths? (paths.map (·.map .step)) = .ok (paths.map Path.ofSteps) := by
  rw [toPaths?_eq_mapM, mapM_eq_ok_iff, List.forall₂_map_left_iff, List.forall₂_map_right_iff,
    List.forall₂_same]
  intro path hpath
  refine bind_eq_ok_iff.2 ⟨_, toOps?_map_step path, ofOps?_eq_ok_iff.2 ⟨rfl, ?_, ?_⟩⟩
  · intro op hop
    obtain ⟨s, hs, rfl⟩ := List.mem_map.1 hop
    exact h path hpath s hs
  · exact misplaced?_eq_none_iff.2 ⟨path, Or.inl rfl⟩

/-- Operations are built from their own drafts. -/
theorem toOp?_ofOp {op : Op} (hsingle : op.Single)
    (hkeys : ∀ name, .key name ∈ op.steps → KeyName .standard name.toList) :
    toOp? (ofOp op) = .ok op := by
  cases op with
  | step s => rfl
  | alternatives paths =>
    refine bind_eq_ok_iff.2 ⟨_, toPaths?_map_step fun path hpath s hs => ?_,
      ofPaths?_eq_ok_iff.2 ⟨paths, rfl, rfl, hsingle⟩⟩
    refine Op.fault?_step_eq_none_iff.2 fun name hname => hkeys name ?_
    exact List.mem_flatten.2 ⟨path, hpath, hname ▸ hs⟩

end Draft

/-- What the checks let through is built. -/
theorem Path.built_of_ofDrafts? {drafts : List Draft} {p : Path}
    (h : Path.ofDrafts? drafts = .ok p) : p.Built := by
  obtain ⟨ops, hops, h⟩ := bind_eq_ok_iff.1 h
  obtain ⟨rfl, hfault, hlast⟩ := ofOps?_eq_ok_iff.1 h
  rw [Draft.toOps?_eq_mapM] at hops
  have hsound : ∀ op ∈ ops,
      op.Single ∧ ∀ name, .key name ∈ op.steps → KeyName .standard name.toList := by
    intro op hop
    obtain ⟨draft, hdraft⟩ := exists_of_forall₂ (mapM_eq_ok_iff.1 hops) hop
    exact Draft.sound_of_toOp? hdraft (hfault op hop)
  refine ⟨fun name hname => ?_, fun op hop => (hsound op hop).1, hlast⟩
  obtain ⟨op, hop, hname⟩ := List.mem_flatMap.1 hname
  exact (hsound op hop).2 name hname

/-- The checks let through exactly the paths that are built, whatever the drafts were. -/
theorem exists_ofDrafts?_iff {p : Path} : (∃ drafts, Path.ofDrafts? drafts = .ok p) ↔ p.Built := by
  constructor
  · intro h
    obtain ⟨drafts, h⟩ := h
    exact Path.built_of_ofDrafts? h
  · intro h
    have hkeys : ∀ op ∈ p.ops, ∀ name, .key name ∈ op.steps → KeyName .standard name.toList :=
      fun op hop name hname => h.keys name (List.mem_flatMap.2 ⟨op, hop, hname⟩)
    refine ⟨p.ops.map Draft.ofOp, bind_eq_ok_iff.2 ⟨p.ops, ?_, ?_⟩⟩
    · rw [Draft.toOps?_eq_mapM, mapM_eq_ok_iff, List.forall₂_map_left_iff, List.forall₂_same]
      exact fun op hop => Draft.toOp?_ofOp (h.single op hop) (hkeys op hop)
    · refine ofOps?_eq_ok_iff.2 ⟨rfl, fun op hop => ?_, h.last⟩
      cases op with
      | alternatives => rfl
      | step s =>
        refine Op.fault?_step_eq_none_iff.2 fun name hname => hkeys _ hop name ?_
        exact List.mem_singleton.2 hname.symm

end DocPath
