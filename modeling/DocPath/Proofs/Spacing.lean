import DocPath.Proofs.Arrivals
import DocPath.Proofs.Rendering

/-!
# DocPath.Proofs.Spacing

Steps as their text says them. Two keys in a row are written with a divider between them, and the
text of a single index does not tell its second bound (`spaced`). Both are without effect: steps
and spaced steps arrive at the same values (`arrivals_spaced`, `runSteps_spaced`). Spaced steps are
legible (`legible_spaced`), and their texts one after the other are the text of the steps
(`renderSteps_eq_spaced`, `renderOps_eq_spaced`).
-/

namespace DocPath

variable {d : Delimiters}

/-! ### What a step says -/

/-- The index with nothing but what its text tells. -/
def Index.plain (i : Index) : Index :=
  match i.mode with
  | .single => .one i.start
  | .range => .slice i.start i.stop

/-- The step with nothing but what its text tells. -/
def Step.plain : Step → Step
  | index i => .index i.plain
  | s => s

theorem Index.select_plain (i : Index) (length : Nat) :
    i.plain.select length = i.select length := by
  rcases i with ⟨start, stop, mode⟩
  cases mode <;> rfl

theorem Index.render_plain (i : Index) : i.plain.render d = i.render d := by
  rcases i with ⟨start, stop, mode⟩
  cases mode <;> rfl

theorem Index.isBounded_plain (i : Index) : i.plain.isBounded = i.isBounded := by
  rcases i with ⟨start, stop, mode⟩
  cases mode <;> rfl

theorem Index.opened_plain (i : Index) (items : List Value) :
    i.plain.opened items = i.opened items := by
  rw [Index.opened, Index.opened, i.select_plain]

theorem Index.on_plain (i : Index) (v : Value) : i.plain.on v = i.on v := by
  cases v with
  | sequence items => rw [Index.on, Index.on, i.select_plain]
  | _ => rfl

namespace Step

theorem render_plain (s : Step) (divider : Char) :
    s.plain.render d divider = s.render d divider := by
  cases s with
  | index i => exact i.render_plain
  | _ => rfl

theorem isKey_plain (s : Step) : s.plain.isKey = s.isKey := by
  cases s <;> rfl

theorem mayLead_plain (s : Step) : s.plain.mayLead = s.mayLead := by
  cases s <;> rfl

theorem isSingle_plain (s : Step) : s.plain.isSingle = s.isSingle := by
  cases s with
  | index i => exact i.isBounded_plain
  | _ => rfl

theorem on_plain (s : Step) (v : Value) : s.plain.on v = s.on v := by
  cases s with
  | index i => exact i.on_plain v
  | _ => rfl

theorem captured_plain (s : Step) (v : Value) : s.plain.captured v = s.captured v := by
  cases s <;> rfl

end Step

/-! ### Spaced steps -/

/-- Steps as they are written: with a divider between keys in a row, and one after a key at the end
if something follows there that a key would run into. -/
def spaced (followed : Bool) : List Step → List Step
  | [] => []
  | s :: rest =>
    s.plain :: ((if s.isKey && rest.head?.elim followed Step.isKey then [.divider] else []) ++
      spaced followed rest)

theorem head?_spaced (followed : Bool) (steps : List Step) :
    (spaced followed steps).head? = steps.head?.map Step.plain := by
  cases steps <;> rfl

/-- What spaced steps consist of. -/
theorem mem_spaced {followed : Bool} {steps : List Step} {s : Step}
    (h : s ∈ spaced followed steps) : s = .divider ∨ ∃ t ∈ steps, s = t.plain := by
  induction steps with
  | nil => cases h
  | cons t rest ih =>
    rw [spaced, List.mem_cons, List.mem_append] at h
    rcases h with rfl | h | h
    · exact Or.inr ⟨t, List.mem_cons_self, rfl⟩
    · split at h
      · exact Or.inl (List.mem_singleton.1 h)
      · cases h
    · rcases ih h with h | ⟨t', ht', rfl⟩
      · exact Or.inl h
      · exact Or.inr ⟨t', List.mem_cons_of_mem t ht', rfl⟩

/-- Steps that may lead are no keys, so they are not spaced. -/
theorem takeWhile_spaced (followed : Bool) (steps : List Step) :
    (spaced followed steps).takeWhile Step.mayLead =
      (steps.takeWhile Step.mayLead).map Step.plain := by
  induction steps with
  | nil => rfl
  | cons s rest ih =>
    rw [spaced, List.takeWhile_cons, List.takeWhile_cons, s.mayLead_plain]
    cases hlead : s.mayLead with
    | false => rfl
    | true =>
      rw [Step.isKey_of_mayLead hlead, Bool.false_and, if_neg Bool.false_ne_true, if_pos rfl,
        if_pos rfl, List.map_cons, List.nil_append, ih]

theorem dropWhile_spaced (followed : Bool) (steps : List Step) :
    (spaced followed steps).dropWhile Step.mayLead =
      spaced followed (steps.dropWhile Step.mayLead) := by
  induction steps with
  | nil => rfl
  | cons s rest ih =>
    rw [spaced, List.dropWhile_cons, List.dropWhile_cons, s.mayLead_plain]
    cases hlead : s.mayLead with
    | false => rfl
    | true =>
      rw [Step.isKey_of_mayLead hlead, Bool.false_and, if_neg Bool.false_ne_true, if_pos rfl,
        if_pos rfl, List.nil_append, ih]

/-- Spaced steps are legible. -/
theorem legible_spaced (followed : Bool) {steps : List Step}
    (h : ∀ s ∈ steps, Spelled d s.plain) : Legible d (spaced followed steps) := by
  induction steps with
  | nil => exact legible_nil
  | cons s rest ih =>
    obtain ⟨hs, hrest⟩ := List.forall_mem_cons.1 h
    rw [spaced]
    split
    next =>
      have hdivider : Legible d (.divider :: spaced followed rest) :=
        legible_cons.2 ⟨⟨_, .divider⟩, nofun, ih hrest⟩
      refine legible_cons.2 ⟨hs, fun _ t ht => ?_, hdivider⟩
      obtain rfl := Option.mem_some_iff.1 ht
      rfl
    next hspace =>
      refine legible_cons.2 ⟨hs, fun hkey t ht => ?_, ih hrest⟩
      rw [List.nil_append, head?_spaced] at ht
      rw [Step.isKey_plain] at hkey
      cases rest with
      | nil => cases ht
      | cons t' rest =>
        obtain rfl := Option.mem_some_iff.1 ht
        rw [Step.isKey_plain]
        simpa [hkey] using hspace

/-- In front of what a key would run into, every key of spaced steps has a step after it. -/
theorem getLast?_spaced {steps : List Step} {s : Step} (h : (spaced true steps).getLast? = some s) :
    s.isKey = false := by
  induction steps with
  | nil => cases h
  | cons t rest ih =>
    rw [spaced] at h
    cases rest with
    | nil =>
      cases ht : t.isKey with
      | true =>
        simp only [ht, List.head?_nil, Option.elim_none, Bool.and_self, if_pos, spaced,
          List.append_nil, List.getLast?_cons_cons, List.getLast?_singleton] at h
        obtain rfl := Option.some.inj h
        rfl
      | false =>
        simp only [ht, Bool.false_and, Bool.false_eq_true, if_false, spaced, List.append_nil,
          List.getLast?_singleton] at h
        obtain rfl := Option.some.inj h
        rw [Step.isKey_plain, ht]
    | cons t' rest =>
      refine ih ?_
      have hne : spaced true (t' :: rest) ≠ [] := List.cons_ne_nil _ _
      rwa [← List.cons_append, List.getLast?_append_of_ne_nil _ hne] at h

/-! ### The text of spaced steps -/

theorem renderSteps_cons (s : Step) (rest : List Step) : renderSteps d (s :: rest) =
    s.render d d.continuation ++ ((if s.isKey && rest.head?.elim false Step.isKey then
      [d.continuation] else []) ++ renderSteps d rest) := by
  cases rest with
  | nil => simp [renderSteps]
  | cons t rest => exact List.append_assoc _ _ _

/-- The steps of an alternative have the text of the spaced ones. -/
theorem renderSteps_eq_spaced (steps : List Step) :
    renderSteps d steps = (spaced false steps).flatMap (·.render d d.continuation) := by
  induction steps with
  | nil => rfl
  | cons s rest ih =>
    rw [renderSteps_cons, ih, spaced, List.flatMap_cons, List.flatMap_append, s.render_plain]
    split <;> rfl

/-- Operations that begin with steps have the text of the spaced steps in front. -/
theorem renderOps_eq_spaced (steps : List Step) (ops : List Op) :
    renderOps d (steps.map .step ++ ops) =
      (spaced (ops.head?.any fun op => op.isKey || op.isAlternatives) steps).flatMap
        (·.render d d.segmentDivider) ++ renderOps d ops := by
  induction steps with
  | nil => rfl
  | cons s rest ih =>
    have hnext : ((rest.map Op.step ++ ops).head?.any fun op => op.isKey || op.isAlternatives) =
        rest.head?.elim (ops.head?.any fun op => op.isKey || op.isAlternatives) Step.isKey := by
      cases rest with
      | nil => rfl
      | cons t rest =>
        rw [List.map_cons, List.cons_append, List.head?_cons, Option.any_some, Op.isKey_step]
        exact Bool.or_false _
    rw [List.map_cons, List.cons_append, renderOps_cons_eq, ih, hnext, Op.isKey_step, spaced,
      List.flatMap_cons, List.flatMap_append, s.render_plain, Op.render]
    simp only [List.append_assoc]
    split <;> rfl

/-! ### The effect of spaced steps -/

variable {v : Value} {trail : List Value}

theorem arrivals_plain (s : Step) (rest : List Step) :
    arrivals v trail (s.plain :: rest) = arrivals v trail (s :: rest) := by
  cases s with
  | index i =>
    have htext : i.plain.text = i.text := congrArg String.ofList i.render_plain
    rw [Step.plain]
    by_cases hprunes : (Step.index i).Prunes v
    · rw [arrivals_of_prunes hprunes]
      exact arrivals_of_prunes hprunes
    cases hv : v.isSequence with
    | true =>
      cases v with
      | sequence items => rw [arrivals_of_sequence, arrivals_of_sequence, i.opened_plain]
      | _ => simp [Value.isSequence] at hv
    | false =>
      rw [arrivals_of_failure i hprunes hv, arrivals_of_failure i.plain hprunes hv, htext]
  | _ => rfl

/-- Where steps after one arrive says where the one and they arrive. -/
theorem arrivals_congr {s : Step} {rest rest' : List Step}
    (h : ∀ v trail, arrivals v trail rest = arrivals v trail rest') :
    arrivals v trail (s :: rest) = arrivals v trail (s :: rest') := by
  cases s with
  | index i => simp only [arrivals, h]
  | _ => simp only [arrivals, h]

/-- Spaced steps arrive where the steps do. -/
theorem arrivals_spaced (followed : Bool) (steps : List Step) (v : Value) (trail : List Value) :
    arrivals v trail (spaced followed steps) = arrivals v trail steps := by
  induction steps generalizing v trail with
  | nil => rfl
  | cons s rest ih =>
    rw [spaced, arrivals_plain]
    refine arrivals_congr fun v trail => ?_
    split
    next => rw [List.singleton_append, arrivals_of_not_acts rfl, ih]
    next => exact ih v trail

/-- Inside an alternative, spaced steps give what the steps do. -/
theorem runSteps_spaced (followed : Bool) (steps : List Step) (v : Value) (trail : List Value) :
    runSteps v trail (spaced followed steps) = runSteps v trail steps := by
  induction steps generalizing v trail with
  | nil => rfl
  | cons s rest ih =>
    rw [spaced, runSteps, runSteps, s.on_plain, s.captured_plain]
    split
    next => rw [List.singleton_append, runSteps_of_not_acts rfl, ih]
    next => exact ih _ _

/-- Before other operations, spaced steps mean what the steps do. -/
theorem meaning_spaced (followed : Bool) (steps : List Step) (ops : List Op) :
    meaning v trail ((spaced followed steps).map .step ++ ops) =
      meaning v trail (steps.map .step ++ ops) := by
  rw [meaning_append, meaning_append, arrivals_spaced]

theorem meaning_spaced_nil (followed : Bool) (steps : List Step) :
    meaning v trail ((spaced followed steps).map .step) = meaning v trail (steps.map .step) := by
  rw [← List.append_nil (List.map Op.step _), meaning_spaced, List.append_nil]

theorem meaning_plain (steps : List Step) (ops : List Op) :
    meaning v trail ((steps.map Step.plain).map .step ++ ops) =
      meaning v trail (steps.map .step ++ ops) := by
  have harrivals : ∀ v trail, arrivals v trail (steps.map Step.plain) = arrivals v trail steps := by
    induction steps with
    | nil => exact fun _ _ => rfl
    | cons s rest ih =>
      intro v trail
      rw [List.map_cons, arrivals_plain]
      exact arrivals_congr ih
  rw [meaning_append, meaning_append, harrivals]

theorem runAlternatives_cons_congr {path path' : List Step} {paths paths' : List (List Step)}
    (hpath : ∀ trail, runSteps v trail path = runSteps v trail path')
    (hpaths : ∀ trail, runAlternatives v trail paths = runAlternatives v trail paths') :
    runAlternatives v trail (path :: paths) = runAlternatives v trail (path' :: paths') := by
  simp only [runAlternatives, hpath, hpaths]

/-- Spaced alternatives give what the alternatives do. -/
theorem runAlternatives_spaced (paths : List (List Step)) (v : Value) (trail : List Value) :
    runAlternatives v trail (paths.map (spaced false)) = runAlternatives v trail paths := by
  induction paths generalizing trail with
  | nil => rfl
  | cons path paths ih =>
    exact runAlternatives_cons_congr (fun trail => runSteps_spaced false path v trail) ih

end DocPath
