import DocPath.Proofs.Meaning
import Mathlib.Logic.Function.Iterate

/-!
# DocPath.Proofs.WalkMeaning

A walk gives exactly what its path means. The results that a stack of frames still gives are the
meanings of its frames, one after the other, up to the first failure (`resultsOf_eq`).

Three steps lead there, each about one layer of the walk: one visit of a frame accounts for the
meaning of that frame (`Frame.meaning_eq_visit`), one search for a result moves along the meaning of
the stack by one (`advance_eq`), and `n` calls of `next` move along it by `n` (`next_iterate`).
-/

namespace DocPath

/-! ### One visit -/

/-- What a visit says about the meaning of its frame. -/
def Visit.meaning (ops : List Op) : Visit → List (Except WalkError Value)
  | pruned => []
  | item v => [.ok v]
  | failure e => [.error e]
  | branches values trail =>
    values.flatMap fun h => DocPath.meaning h.value (trail.map Held.value) ops

theorem finish_eq_leaf (h : Held) (trail : Trail) :
    finish h trail = leaf h.value (trail.map Held.value) := by
  unfold finish leaf
  cases trail <;> rfl

/-- What a step that goes on as one branch means. -/
theorem meaning_branch (s : Step) (h : Held) (trail : Trail) (rest : List Op) :
    meaning (s.on h.value) (trail.map Held.value ++ s.captured h.value) rest =
      (Visit.branches [(s.apply h trail).1] (s.apply h trail).2).meaning rest := by
  obtain ⟨hvalue, htrail⟩ := s.value_apply h trail
  rw [Visit.meaning, List.flatMap_singleton, hvalue, htrail]

/-- The visit of a branch accounts for all of its meaning. -/
theorem meaning_eq_visit (h : Held) (trail : Trail) (ops : List Op) :
    meaning h.value (trail.map Held.value) ops = (visit h trail ops).meaning ops.tail := by
  cases ops with
  | nil =>
    cases hnull : h.isNull with
    | true =>
      have hvalue : h.value.isNull = true := hnull
      simp only [meaning, visit, hnull, hvalue, if_true, Visit.meaning]
    | false =>
      have hvalue : h.value.isNull = false := hnull
      simp only [meaning, visit, hnull, hvalue, Bool.false_eq_true, if_false, finish_eq_leaf,
        Visit.meaning]
  | cons op rest =>
    rw [List.tail_cons]
    cases hnull : h.isNull && !op.letsNullThrough with
    | true =>
      have hvalue : (h.value.isNull && !op.letsNullThrough) = true := hnull
      simp only [meaning, visit, hnull, hvalue, if_true, Visit.meaning]
    | false =>
    have hvalue : (h.value.isNull && !op.letsNullThrough) = false := hnull
    simp only [meaning, visit, hnull, hvalue, Bool.false_eq_true, if_false]
    cases op with
    | alternatives paths =>
      obtain ⟨hvalues, htrail⟩ := value_evaluate paths h trail
      simp only [Visit.meaning, hvalues, htrail]
    | step s =>
      cases s with
      | index i =>
        cases hv : h.value with
        | sequence items =>
          simp only [Visit.meaning, ← i.value_branches hv, List.flatMap_map]
        | _ => rfl
      | key name => exact meaning_branch _ h trail rest
      | default d => exact meaning_branch _ h trail rest
      | capture => exact meaning_branch _ h trail rest
      | divider => exact meaning_branch _ h trail rest
      | anyEntry => exact meaning_branch _ h trail rest

namespace Frame

/-- The meaning of what is still to come in a frame. -/
def meaning (f : Frame) : List (Except WalkError Value) :=
  DocPath.meaning f.value.value (f.trail.map Held.value) f.ops

theorem meaning_eq_visit (f : Frame) : f.meaning = f.visit.meaning f.ops.tail :=
  DocPath.meaning_eq_visit f.value f.trail f.ops

/-- A frame that goes on means what the frames mean that it goes on as. -/
theorem meaning_of_branches {f : Frame} {values : List Held} {trail : Trail}
    (h : f.visit = .branches values trail) :
    f.meaning = (f.next values trail).flatMap meaning := by
  rw [f.meaning_eq_visit, h, next, List.flatMap_map]
  rfl

end Frame

/-! ### The whole stack -/

namespace Walk

/-- What the frames of a stack mean, up to the first failure. -/
def meaningOf (stack : List Frame) : List (Except WalkError Value) :=
  upToError (stack.flatMap Frame.meaning)

/-- The search for a result gives the first result that the stack means, and leaves a stack that
means the others. -/
theorem advance_eq (stack : List Frame) :
    meaningOf stack = (advance stack).1.toList ++ meaningOf (advance stack).2 := by
  fun_induction advance stack with
  | case1 => rfl
  | case2 f rest hv ih =>
    rw [← ih, meaningOf, List.flatMap_cons, f.meaning_eq_visit, hv]
    rfl
  | case3 f rest v hv =>
    rw [meaningOf, List.flatMap_cons, f.meaning_eq_visit, hv]
    rfl
  | case4 f rest e hv =>
    rw [meaningOf, List.flatMap_cons, f.meaning_eq_visit, hv]
    rfl
  | case5 f rest values trail hv ih =>
    rw [← ih, meaningOf, meaningOf, List.flatMap_cons, List.flatMap_append,
      Frame.meaning_of_branches hv]

/-- A search finds nothing only when no frame is left. -/
theorem advance_none (stack : List Frame) (h : (advance stack).1 = none) :
    (advance stack).2 = [] := by
  fun_induction advance stack with
  | case1 => rfl
  | case2 f rest hv ih => exact ih h
  | case3 => simp at h
  | case4 => simp at h
  | case5 f rest values trail hv ih => exact ih h

/-- All results of a stack are those that it means. -/
theorem resultsOf_eq (stack : List Frame) : resultsOf stack = meaningOf stack := by
  fun_induction resultsOf stack with
  | case1 stack rest h =>
    have hrest := advance_none stack (by rw [h])
    rw [advance_eq, h]
    rw [h] at hrest
    obtain rfl : rest = [] := hrest
    rfl
  | case2 stack r rest h ih =>
    rw [advance_eq, h, ih]
    rfl

/-- After `n` calls of `next`, the next result is the one that the stack means at place `n`; past
the last one there is none. -/
theorem next_iterate (n : Nat) (w : Walk) :
    ((fun w : Walk => w.next.2)^[n] w).next.1 = (meaningOf w.stack)[n]? := by
  induction n generalizing w with
  | zero =>
    rw [Function.iterate_zero_apply, advance_eq]
    cases hr : (advance w.stack).1 with
    | some r =>
      rw [Option.toList_some, List.singleton_append, List.getElem?_cons_zero]
      exact hr
    | none =>
      rw [advance_none _ hr]
      exact hr
  | succ n ih =>
    rw [Function.iterate_succ_apply, ih, advance_eq w.stack]
    cases hr : (advance w.stack).1 with
    | some r =>
      rw [Option.toList_some, List.singleton_append, List.getElem?_cons_succ]
      rfl
    | none =>
      have hnext : w.next.2.stack = [] := advance_none _ hr
      rw [hnext, advance_none _ hr]
      rfl

theorem meaningOf_start (p : Path) (root : Value) :
    meaningOf (start p root).stack = p.meaning root := by
  rw [start, meaningOf, List.flatMap_singleton]
  rfl

/-- All results of a walk are those that its path means for the document. -/
theorem results_start (p : Path) (root : Value) : (start p root).results = p.meaning root := by
  rw [results, resultsOf_eq, meaningOf_start]

end Walk

/-- **A walk refines the meaning of its path.** Asking the walk of a document for the next result
again and again gives the results that the path means for the document, in that order, and then
nothing for ever; collected, they are the items or the first failure. -/
theorem walk_refines_meaning (p : Path) (root : Value) :
    (∀ n, ((fun w : Walk => w.next.2)^[n] (Walk.start p root)).next.1 = (p.meaning root)[n]?) ∧
      p.values root = collect (p.meaning root) := by
  constructor
  · intro n
    rw [Walk.next_iterate, Walk.meaningOf_start]
  · rw [Path.values, Walk.results_start]

end DocPath
