import DocPath.Proofs.Runs
import Mathlib.Logic.Equiv.Defs

/-!
# DocPath.Proofs.Threading

One trail is threaded through all alternatives, but they do not see each other: each gives the value
that it gives when it is run on its own, with no trail before it, and puts the captures of that run
behind the trail (`evaluate_separate`).

The reason is that a step only ever adds to the trail and never looks at it (`Step.apply_trail`).
That holds step by step, so it holds of runs and then of all alternatives, however the value is
held.
-/

namespace DocPath

/-- What operations in order make of a value and a trail, each of what the ones before it made. -/
def applyOps (h : Held) (trail : Trail) (ops : List Op) : Held × Trail :=
  ops.foldl (fun state op => op.apply state.1 state.2) (h, trail)

@[simp] theorem applyOps_nil (h : Held) (trail : Trail) : applyOps h trail [] = (h, trail) := rfl

/-- The steps of an alternative are applied in this way. -/
theorem applyOps_map_step (steps : List Step) (h : Held) (trail : Trail) :
    applyOps h trail (steps.map .step) = applySteps h trail steps := by
  induction steps generalizing h trail with
  | nil => rfl
  | cons s rest ih => exact ih _ _

/-! ### The trail is only added to -/

/-- A step adds its captures to the trail, and does the same whatever trail there is. -/
theorem Step.apply_trail (s : Step) (h : Held) (trail : Trail) :
    s.apply h trail = ((s.apply h []).1, trail ++ (s.apply h []).2) := by
  cases s with
  | capture => rfl
  | _ => exact congrArg (Prod.mk _) (List.append_nil trail).symm

/-- So do steps in order. -/
theorem applySteps_trail (steps : List Step) (h : Held) (trail : Trail) :
    applySteps h trail steps =
      ((applySteps h [] steps).1, trail ++ (applySteps h [] steps).2) := by
  induction steps generalizing h trail with
  | nil => exact congrArg (Prod.mk h) (List.append_nil trail).symm
  | cons s rest ih =>
    have hfrom (trail : Trail) : applySteps h trail (s :: rest) =
        applySteps (s.apply h trail).1 (s.apply h trail).2 rest := rfl
    rw [hfrom, hfrom, s.apply_trail h trail, ih _ (trail ++ _), ih _ (s.apply h []).2]
    simp only [List.append_assoc]

/-- Steps capture once for each capturing step. -/
theorem length_applySteps (steps : List Step) (h : Held) :
    (applySteps h [] steps).2.length = steps.countP Step.isCapture := by
  have htrail := congrArg List.length (value_applySteps steps h []).2
  rw [List.length_map, List.map_nil, length_runSteps] at htrail
  rw [htrail]
  exact Nat.zero_add _

/-! ### Alternatives -/

/-- The values of alternatives and the trail after them, by runs of each from the same value. -/
theorem evaluate_eq (paths : List (List Step)) (h : Held) (trail : Trail) :
    evaluate h trail paths = (paths.map fun path => (applySteps h [] path).1.value,
      trail ++ paths.flatMap fun path => (applySteps h [] path).2) := by
  induction paths generalizing trail with
  | nil => exact congrArg (Prod.mk []) (List.append_nil trail).symm
  | cons path paths ih =>
    rw [evaluate, applySteps_trail path h trail]
    simp only [ih, List.map_cons, List.flatMap_cons, List.append_assoc]

theorem evaluate_ofFn {m : Nat} (paths : Fin m → List Step) (h : Held) (trail : Trail) :
    evaluate h trail (List.ofFn paths) =
      (List.ofFn fun i => (applySteps h [] (paths i)).1.value,
        trail ++ (List.ofFn fun i => (applySteps h [] (paths i)).2).flatten) := by
  rw [evaluate_eq, List.map_ofFn, List.flatMap_def, List.map_ofFn]
  rfl

/-- **Alternatives are evaluated separately.** Of `m` alternatives, each gives the value that its
operations make of the given value alone, from no trail. The trail is left with the captures of
these separate runs behind it, in order, one for each capturing step of each alternative. In another
order, the alternatives give the same values and captures in that order. -/
theorem evaluate_separate (h : Held) (trail : Trail) {m : Nat} (paths : Fin m → List Step) :
    let run (i : Fin m) := applyOps h [] ((paths i).map .step)
    evaluate h trail (List.ofFn paths) =
        (List.ofFn fun i => (run i).1.value, trail ++ (List.ofFn fun i => (run i).2).flatten) ∧
      (∀ i, (run i).2.length = (paths i).countP Step.isCapture) ∧
      ∀ order : Equiv.Perm (Fin m), evaluate h trail (List.ofFn (paths ∘ order)) =
        (List.ofFn fun i => (run (order i)).1.value,
          trail ++ (List.ofFn fun i => (run (order i)).2).flatten) := by
  intro run
  have hrun : ∀ i, run i = applySteps h [] (paths i) := fun i => applyOps_map_step _ _ _
  simp only [hrun]
  exact ⟨evaluate_ofFn paths h trail, fun i => length_applySteps (paths i) h,
    fun order => evaluate_ofFn (paths ∘ order) h trail⟩

end DocPath
