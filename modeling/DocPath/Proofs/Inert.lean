import DocPath.Proofs.Arrivals
import DocPath.Proofs.WalkMeaning

/-!
# DocPath.Proofs.Inert

Boundaries of segments and wildcards for every entry do nothing. A path without them gives the same
results as with them, for every document (`results_acting`).

What has to be shown for this is about null. A walk decides by the next operation alone whether a
null goes on, and leaving out a step puts another one in its place. But a step that does nothing
lets null through, to the operation that decides about it anyway (`meaning_of_not_acts`).
-/

namespace DocPath

/-- The operation without the steps that do nothing, if there is anything left of it. -/
def Op.acting? : Op → Option Op
  | step s => if s.acts then some (step s) else none
  | alternatives paths => some (alternatives (paths.map fun path => path.filter Step.acts))

/-- The path without the steps that do nothing, in its alternatives as well. -/
def Path.acting (p : Path) : Path := ⟨p.ops.filterMap Op.acting?⟩

theorem Op.acting?_of_acts {s : Step} (h : s.acts = true) : (step s).acting? = some (step s) :=
  if_pos h

theorem Op.acting?_of_not_acts {s : Step} (h : s.acts = false) : (step s).acting? = none := by
  simp [acting?, h]

theorem Op.acting?_alternatives (paths : List (List Step)) : (alternatives paths).acting? =
    some (alternatives (paths.map fun path => path.filter Step.acts)) := rfl

/-- In a run, steps that do nothing can be left out. -/
theorem runSteps_acting (steps : List Step) (v : Value) (trail : List Value) :
    runSteps v trail (steps.filter Step.acts) = runSteps v trail steps := by
  induction steps generalizing v trail with
  | nil => rfl
  | cons s rest ih =>
    cases hs : s.acts with
    | false =>
      rw [List.filter_cons_of_neg (by simp [hs]), runSteps_of_not_acts hs]
      exact ih v trail
    | true =>
      rw [List.filter_cons_of_pos hs, runSteps, runSteps]
      exact ih _ _

/-- So they can in every alternative. -/
theorem runAlternatives_acting (paths : List (List Step)) (v : Value) (trail : List Value) :
    runAlternatives v trail (paths.map fun path => path.filter Step.acts) =
      runAlternatives v trail paths := by
  induction paths generalizing trail with
  | nil => rfl
  | cons path paths ih => simp only [List.map_cons, runAlternatives, runSteps_acting, ih]

/-- Operations mean the same without the steps that do nothing. -/
theorem meaning_acting (ops : List Op) (v : Value) (trail : List Value) :
    meaning v trail (ops.filterMap Op.acting?) = meaning v trail ops := by
  induction ops generalizing v trail with
  | nil => rfl
  | cons op rest ih =>
    cases op with
    | alternatives paths =>
      rw [List.filterMap_cons_some (Op.acting?_alternatives paths), meaning_alternation,
        meaning_alternation, runAlternatives_acting]
    | step s =>
      cases hs : s.acts with
      | false =>
        rw [List.filterMap_cons_none (Op.acting?_of_not_acts hs), meaning_of_not_acts hs]
        exact ih v trail
      | true =>
        rw [List.filterMap_cons_some (Op.acting?_of_acts hs)]
        exact meaning_append_of_eq [s] ih

/-- **Boundaries of segments and wildcards for every entry are inert.** The walk of a document along
a path gives the same items, and the same failure if there is one, as along the path without these
steps, at its top and in all its alternatives. -/
theorem results_acting (p : Path) (root : Value) :
    (Walk.start p.acting root).results = (Walk.start p root).results := by
  simp only [Walk.results_start, Path.meaning]
  exact congrArg upToError (meaning_acting p.ops root [])

/-- The default comes to stand right behind the key that may give null. -/
example (d : Default) : Path.acting ⟨[.key "a", .divider, .anyEntry, .step (.default d)]⟩ =
    ⟨[.key "a", .step (.default d)]⟩ := rfl

end DocPath
