import DocPath.Proofs.Arrivals
import DocPath.Proofs.WalkMeaning

/-!
# DocPath.Proofs.Composition

Walks compose: a walk along two lists of operations, one after the other, is a walk along the second
list from each item of a walk along the first (`results_append`).

Two things could break this. A capture made by the first list would be in the items of the whole, so
there must be none. And null, which gives no item at the end of a path, could still be filled by a
default at the head of the second list, so nothing may come of null there (`meaning_null_eq_nil`).
-/

namespace DocPath

/-! ### Results up to the first failure -/

section

variable {α β ε : Type}

@[simp] theorem upToError_upToError_append (xs ys : List (Except ε α)) :
    upToError (upToError xs ++ ys) = upToError (xs ++ ys) := by
  induction xs with
  | nil => rfl
  | cons x xs ih =>
    cases x with
    | error e => rfl
    | ok a => exact congrArg (.ok a :: ·) ih

@[simp] theorem upToError_append_upToError (xs ys : List (Except ε α)) :
    upToError (xs ++ upToError ys) = upToError (xs ++ ys) := by
  induction xs with
  | nil =>
    rw [List.nil_append, List.nil_append]
    have h := upToError_upToError_append ys []
    rwa [List.append_nil, List.append_nil] at h
  | cons x xs ih =>
    cases x with
    | error e => rfl
    | ok a => exact congrArg (.ok a :: ·) ih

/-- The results that come of a result: those of its item, or the failure itself. -/
def resultsOfItem (f : α → List (Except ε β)) : Except ε α → List (Except ε β)
  | .ok a => f a
  | .error e => [.error e]

/-- What comes of results after the first failure is dropped whenever it is looked for: among the
results themselves, among those of one item, or among all. -/
theorem upToError_flatMap (f : α → List (Except ε β)) (results : List (Except ε α)) :
    upToError ((upToError results).flatMap (resultsOfItem fun a => upToError (f a))) =
      upToError (results.flatMap (resultsOfItem f)) := by
  induction results with
  | nil => rfl
  | cons r results ih =>
    cases r with
    | error e => rfl
    | ok a =>
      rw [upToError_ok, List.flatMap_cons, List.flatMap_cons, resultsOfItem, resultsOfItem,
        upToError_upToError_append, ← upToError_append_upToError, ih, upToError_append_upToError]

theorem upToError_map (f : α → β) (results : List (Except ε α)) :
    upToError (results.map (Except.map f)) = (upToError results).map (Except.map f) := by
  induction results with
  | nil => rfl
  | cons r results ih =>
    cases r with
    | error e => rfl
    | ok a => exact congrArg (.ok (f a) :: ·) ih

end

/-! ### The seam -/

/-- Whether a default comes first, past operations that leave every value as it is. -/
def beginsWithDefault : List Op → Bool
  | .step (.default _) :: _ => true
  | .step .divider :: rest => beginsWithDefault rest
  | .step .anyEntry :: rest => beginsWithDefault rest
  | _ => false

/-- Nothing comes of null unless a default comes first. -/
theorem meaning_null_eq_nil {ops : List Op} (h : beginsWithDefault ops = false)
    (trail : List Value) : meaning .null trail ops = [] := by
  induction ops generalizing trail with
  | nil => rfl
  | cons op rest ih =>
    cases op with
    | alternatives => rfl
    | step s =>
      cases s with
      | default => simp [beginsWithDefault] at h
      | divider => exact ih h _
      | anyEntry => exact ih h _
      | _ => rfl

/-- Whether the operation captures the value. -/
def Op.isCapture : Op → Bool
  | step s => s.isCapture
  | alternatives _ => false

/-- Operations among which there is no alternation are steps. -/
theorem exists_steps_of_not_alternatives {ops : List Op}
    (h : ∀ op ∈ ops, op.isAlternatives = false) : ∃ steps : List Step, ops = steps.map .step := by
  induction ops with
  | nil => exact ⟨[], rfl⟩
  | cons op ops ih =>
    obtain ⟨hop, hops⟩ := List.forall_mem_cons.1 h
    obtain ⟨steps, rfl⟩ := ih hops
    cases op with
    | alternatives => cases hop
    | step s => exact ⟨s :: steps, rfl⟩

/-- Steps without a capture arrive with the captures that there were before. -/
theorem trail_of_mem_arrivals {v : Value} {steps : List Step} {a : Value × List Value}
    (hsteps : ∀ s ∈ steps, s.isCapture = false) (h : .ok a ∈ arrivals v [] steps) : a.2 = [] := by
  have hnone : steps.countP Step.isCapture = 0 :=
    List.countP_eq_zero.2 fun s hs => by simp [hsteps s hs]
  rw [← List.length_eq_zero_iff, length_of_mem_arrivals h, hnone]
  rfl

/-- What operations give after steps without a capture, they give at each item of the steps. -/
theorem meaning_append_eq_flatMap {steps : List Step} {ops : List Op}
    (hsteps : ∀ s ∈ steps, s.isCapture = false) (hops : beginsWithDefault ops = false)
    (root : Value) : meaning root [] (steps.map .step ++ ops) =
      (meaning root [] (steps.map .step)).flatMap (resultsOfItem fun v => meaning v [] ops) := by
  have hitems := meaning_append root [] steps []
  rw [List.append_nil] at hitems
  rw [meaning_append, hitems, List.flatMap_assoc]
  refine List.flatMap_congr fun a ha => ?_
  cases a with
  | error e => rfl
  | ok a =>
    obtain ⟨v, trail⟩ := a
    obtain rfl : trail = [] := trail_of_mem_arrivals hsteps ha
    rw [goOn_ok, goOn_ok, meaning]
    cases hv : v.isNull with
    | true =>
      obtain rfl := Value.isNull_eq_true_iff.1 hv
      exact meaning_null_eq_nil hops []
    | false => exact (List.flatMap_singleton ..).symm

/-! ### Walks -/

/-- **Walks compose.** Along operations `p` and then `q`, a walk gives the results of a walk along
`q` from each item of a walk along `p`, up to the first failure, provided that `p` captures nothing
and has no alternation, and that `q` does not begin with a default. -/
theorem results_append {p q : List Op}
    (hp : ∀ op ∈ p, op.isCapture = false ∧ op.isAlternatives = false)
    (hq : beginsWithDefault q = false) (root : Value) :
    (Walk.start ⟨p ++ q⟩ root).results = upToError ((Walk.start ⟨p⟩ root).results.flatMap
      (resultsOfItem fun v => (Walk.start ⟨q⟩ v).results)) := by
  obtain ⟨steps, rfl⟩ := exists_steps_of_not_alternatives fun op hop => (hp op hop).2
  have hsteps : ∀ s ∈ steps, s.isCapture = false :=
    fun s hs => (hp (.step s) (List.mem_map_of_mem hs)).1
  simp only [Walk.results_start, Path.meaning]
  rw [meaning_append_eq_flatMap hsteps hq, upToError_flatMap]

/-- The second of three branches fails, so the third one gives nothing: `a[*]`, then `.b[*]`. -/
theorem results_append_failure :
    let p := [Op.key "a", .index (.one .wildcard)]
    let q := [Op.divider, .key "b", .index (.one .wildcard)]
    let entry (v : Value) : Value := .mapping [("b", v)]
    let root := Value.mapping
      [("a", .sequence [entry (.sequence [.bool true]), entry (.string "x"),
        entry (.sequence [.bool false])])]
    (∀ op ∈ p, op.isCapture = false ∧ op.isAlternatives = false) ∧ beginsWithDefault q = false ∧
      (Walk.start ⟨p ++ q⟩ root).results = upToError ((Walk.start ⟨p⟩ root).results.flatMap
        (resultsOfItem fun v => (Walk.start ⟨q⟩ v).results)) ∧
      (Walk.start ⟨p ++ q⟩ root).results = [.ok (.bool true), .error (.notASequence "[*]" "str")] := by
  intro p q entry root
  have hp : ∀ op ∈ p, op.isCapture = false ∧ op.isAlternatives = false := by decide
  refine ⟨hp, rfl, results_append hp rfl root, ?_⟩
  rw [Walk.results_start]
  rfl

end DocPath
