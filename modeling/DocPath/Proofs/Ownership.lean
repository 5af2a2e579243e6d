import DocPath.Proofs.Arrivals
import DocPath.Proofs.Positions
import DocPath.Proofs.WalkMeaning

/-!
# DocPath.Proofs.Ownership

Shared and owned values. An operation looks into a shared value and takes an owned one apart, and
the outcome is the same (`ownership_agrees`): the same value, the same captures, and the same items
of a walk.

Taking apart is where an evaluation could fail: a sequence may be cut at two places only if these
lie inside it. The functions with names in `Within?` are the evaluation and the walk with this
condition in front of every cut. They give up where it is not met, and it always is
(`Op.applyWithin?_eq`, `Walk.resultsWithin?_eq`).
-/

namespace DocPath

variable {h h' : Held} {trail trail' : Trail} {items : List Value} {start stop : Nat}

/-! ### The same outcome -/

/-- A step only adds to the trail. -/
theorem Step.prefix_apply_snd (s : Step) (h : Held) (trail : Trail) :
    trail <+: (s.apply h trail).2 := by
  cases s with
  | capture => exact List.prefix_append trail [h]
  | _ => exact List.prefix_rfl

theorem prefix_applySteps_snd (steps : List Step) (h : Held) (trail : Trail) :
    trail <+: (applySteps h trail steps).2 := by
  induction steps generalizing h trail with
  | nil => exact List.prefix_rfl
  | cons s rest ih => exact (s.prefix_apply_snd h trail).trans (ih _ _)

theorem prefix_evaluate_snd (paths : List (List Step)) (h : Held) (trail : Trail) :
    trail <+: (evaluate h trail paths).2 := by
  induction paths generalizing trail with
  | nil => exact List.prefix_rfl
  | cons steps paths ih => exact (prefix_applySteps_snd steps h trail).trans (ih _)

theorem Op.prefix_apply_snd (op : Op) (h : Held) (trail : Trail) :
    trail <+: (op.apply h trail).2 := by
  cases op with
  | step s => exact s.prefix_apply_snd h trail
  | alternatives paths => exact prefix_evaluate_snd paths h trail

/-- What an operation makes of a value and a trail does not depend on how they are held. -/
theorem Op.value_apply_congr (op : Op) (hvalue : h.value = h'.value)
    (htrail : trail.map Held.value = trail'.map Held.value) :
    (op.apply h trail).1.value = (op.apply h' trail').1.value ∧
      (op.apply h trail).2.map Held.value = (op.apply h' trail').2.map Held.value := by
  cases op with
  | step s =>
    obtain ⟨hv, ht⟩ := s.value_apply h trail
    obtain ⟨hv', ht'⟩ := s.value_apply h' trail'
    exact ⟨by rw [apply, apply, hv, hv', hvalue], by rw [apply, apply, ht, ht', hvalue, htrail]⟩
  | alternatives paths =>
    obtain ⟨hv, ht⟩ := value_evaluate paths h trail
    obtain ⟨hv', ht'⟩ := value_evaluate paths h' trail'
    rw [hvalue, htrail, ← hv'] at hv
    rw [hvalue, htrail, ← ht'] at ht
    exact ⟨congrArg Value.sequence hv, ht⟩

/-- A walk from a value that a default has put in the place of null. -/
theorem results_default (d : Default) (ops : List Op) :
    (Walk.start ⟨.step (.default d) :: ops⟩ .null).results =
      (Walk.start ⟨ops⟩ d.value).results := by
  have hmeaning : meaning .null [] (.step (.default d) :: ops) = meaning d.value [] ops := rfl
  rw [Walk.results_start, Walk.results_start, Path.meaning, Path.meaning, hmeaning]

/-! ### Cuts inside a sequence -/

/-- The elements of a sequence between two places, if these lie inside it. -/
def Held.elementsWithin? (start stop : Nat) (h : Held) : Option (List Held) :=
  match h.value with
  | .sequence items =>
    if start ≤ stop ∧ stop ≤ items.length then h.elements? start stop else none
  | _ => h.elements? start stop

theorem Held.elementsWithin?_eq (hv : h.value = .sequence items) (hstart : start ≤ stop)
    (hstop : stop ≤ items.length) :
    h.elementsWithin? start stop = some (h.elements start stop) := by
  obtain ⟨found, hfound, -⟩ := exists_elements? hv hstart hstop
  rw [elementsWithin?, hv, elements, hfound]
  exact if_pos ⟨hstart, hstop⟩

namespace Index

/-- What an index makes of a value, if it cuts inside sequences only. -/
def applyWithin? (i : Index) (h : Held) : Option Held :=
  match h.value with
  | .sequence items =>
    match i.select items.length with
    | .all => some h
    | .element none => some (.shared .null)
    | .element (some n) => do
      let found ← h.elementsWithin? n (n + 1)
      some (found.getLast?.getD (.shared .null))
    | .slice start stop => do
      let found ← h.elementsWithin? start stop
      some (.owned (.sequence (found.map Held.value)))
  | _ => some h

theorem applyWithin?_eq (i : Index) (h : Held) : i.applyWithin? h = some (i.apply h) := by
  rw [applyWithin?, apply]
  cases hv : h.value with
  | sequence items =>
    dsimp only
    cases hs : i.select items.length with
    | all => rfl
    | element found =>
      cases found with
      | none => rfl
      | some n =>
        have hcut := Held.elementsWithin?_eq hv (Nat.le_succ n) (select_element_lt hs)
        simp only [hcut]
        rfl
    | slice start stop =>
      obtain ⟨hstart, hstop⟩ := select_slice_le hs
      simp only [Held.elementsWithin?_eq hv hstart hstop]
      rfl
  | _ => rfl

/-- The branches that an index opens, if it cuts inside sequences only. -/
def branchesWithin? (i : Index) (length : Nat) (h : Held) : Option (List Held) :=
  match i.select length with
  | .all => h.elementsWithin? 0 length
  | .slice start stop => h.elementsWithin? start stop
  | .element none => some []
  | .element (some n) => do
    let found ← h.elementsWithin? n (n + 1)
    match found.getLast? with
    | none => some []
    | some element =>
      match element.value with
      | .sequence inner => element.elementsWithin? 0 inner.length
      | _ => some [element]

theorem branchesWithin?_eq (i : Index) (hv : h.value = .sequence items) :
    i.branchesWithin? items.length h = some (i.branches items.length h) := by
  rw [branchesWithin?, branches]
  cases hs : i.select items.length with
  | all => exact Held.elementsWithin?_eq hv (Nat.zero_le _) (Nat.le_refl _)
  | slice start stop =>
    obtain ⟨hstart, hstop⟩ := select_slice_le hs
    exact Held.elementsWithin?_eq hv hstart hstop
  | element found =>
    cases found with
    | none => rfl
    | some n =>
      have hcut := Held.elementsWithin?_eq hv (Nat.le_succ n) (select_element_lt hs)
      simp only [hcut, Option.bind_eq_bind, Option.bind_some]
      cases (h.elements n (n + 1)).getLast? with
      | none => rfl
      | some element =>
        dsimp only
        cases hinner : element.value with
        | sequence inner =>
          exact Held.elementsWithin?_eq hinner (Nat.zero_le _) (Nat.le_refl _)
        | _ => rfl

end Index

/-- What a step makes of a value and a trail, if it cuts inside sequences only. -/
def Step.applyWithin? (h : Held) (trail : Trail) : Step → Option (Held × Trail)
  | index i => do
    let h ← i.applyWithin? h
    some (h, trail)
  | s => some (s.apply h trail)

theorem Step.applyWithin?_eq (s : Step) (h : Held) (trail : Trail) :
    s.applyWithin? h trail = some (s.apply h trail) := by
  cases s with
  | index i =>
    rw [applyWithin?, i.applyWithin?_eq]
    rfl
  | _ => rfl

/-- What steps in order make of a value and a trail, if they cut inside sequences only. -/
def applyStepsWithin? (h : Held) (trail : Trail) : List Step → Option (Held × Trail)
  | [] => some (h, trail)
  | s :: rest => do
    let (h, trail) ← s.applyWithin? h trail
    applyStepsWithin? h trail rest

theorem applyStepsWithin?_eq (steps : List Step) (h : Held) (trail : Trail) :
    applyStepsWithin? h trail steps = some (applySteps h trail steps) := by
  induction steps generalizing h trail with
  | nil => rfl
  | cons s rest ih =>
    rw [applyStepsWithin?, s.applyWithin?_eq]
    exact ih _ _

/-- The values that alternatives give, if they cut inside sequences only. -/
def evaluateWithin? (h : Held) (trail : Trail) : List (List Step) → Option (List Value × Trail)
  | [] => some ([], trail)
  | steps :: rest => do
    let (result, trail) ← applyStepsWithin? h trail steps
    let (results, trail) ← evaluateWithin? h trail rest
    some (result.value :: results, trail)

theorem evaluateWithin?_eq (paths : List (List Step)) (h : Held) (trail : Trail) :
    evaluateWithin? h trail paths = some (evaluate h trail paths) := by
  induction paths generalizing trail with
  | nil => rfl
  | cons steps rest ih =>
    simp only [evaluateWithin?, applyStepsWithin?_eq, ih, Option.bind_eq_bind, Option.bind_some,
      evaluate]

namespace Op

/-- What an operation makes of a value and a trail, if it cuts inside sequences only. -/
def applyWithin? (h : Held) (trail : Trail) : Op → Option (Held × Trail)
  | step s => s.applyWithin? h trail
  | alternatives paths => do
    let (results, trail) ← evaluateWithin? h trail paths
    some (.owned (.sequence results), trail)

/-- An operation on its own cuts inside sequences only. -/
theorem applyWithin?_eq (op : Op) (h : Held) (trail : Trail) :
    op.applyWithin? h trail = some (op.apply h trail) := by
  cases op with
  | step s => exact s.applyWithin?_eq h trail
  | alternatives paths =>
    rw [applyWithin?, evaluateWithin?_eq]
    rfl

end Op

/-- The visit of a branch, if it cuts inside sequences only. -/
def visitWithin? (h : Held) (trail : Trail) : List Op → Option Visit
  | [] => some (visit h trail [])
  | op :: _ =>
    if h.isNull && !op.letsNullThrough then some .pruned
    else match op with
      | .alternatives paths => do
        let (results, trail) ← evaluateWithin? h trail paths
        some (.item (.sequence (trail.map Held.value ++ results)))
      | .step (.index i) =>
        match h.value with
        | .sequence items => do
          let values ← i.branchesWithin? items.length h
          some (.branches values trail)
        | v => some (.failure (.notASequence i.text v.kindName))
      | .step s => do
        let (h, trail) ← s.applyWithin? h trail
        some (.branches [h] trail)

theorem visitWithin?_eq (h : Held) (trail : Trail) (ops : List Op) :
    visitWithin? h trail ops = some (visit h trail ops) := by
  cases ops with
  | nil => rfl
  | cons op rest =>
    cases hnull : h.isNull && !op.letsNullThrough with
    | true => simp only [visitWithin?, visit, hnull, if_true]
    | false =>
    simp only [visitWithin?, visit, hnull, Bool.false_eq_true, if_false]
    cases op with
    | alternatives paths =>
      simp only [evaluateWithin?_eq]
      rfl
    | step s =>
      cases s with
      | index i =>
        cases hv : h.value with
        | sequence items =>
          simp only [i.branchesWithin?_eq hv]
          rfl
        | _ => rfl
      | _ => rfl

/-- The visit of a frame, if it cuts inside sequences only. -/
def Frame.visitWithin? (f : Frame) : Option Visit := DocPath.visitWithin? f.value f.trail f.ops

theorem Frame.visitWithin?_eq (f : Frame) : f.visitWithin? = some f.visit :=
  DocPath.visitWithin?_eq f.value f.trail f.ops

namespace Walk

/-- The search for a result, if it cuts inside sequences only. -/
def advanceWithin? : List Frame → Option (Option (Except WalkError Value) × List Frame)
  | [] => some (none, [])
  | f :: rest =>
    match _h : f.visitWithin? with
    | none => none
    | some .pruned => advanceWithin? rest
    | some (.item v) => some (some (.ok v), rest)
    | some (.failure e) => some (some (.error e), [])
    | some (.branches values trail) => advanceWithin? (f.next values trail ++ rest)
termination_by stack => workOf stack
decreasing_by
  · have := f.work_pos
    simp only [workOf, List.map_cons, total_cons]
    omega
  · have hvisit : f.visit = .branches values trail :=
      Option.some.inj (f.visitWithin?_eq.symm.trans _h)
    simp only [workOf, List.map_append, total_append, List.map_cons, total_cons,
      Frame.work_of_branches hvisit]
    omega

/-- The search goes on after the visit of the first frame, which does not give up. -/
theorem advanceWithin?_cons (f : Frame) (rest : List Frame) :
    advanceWithin? (f :: rest) =
      match f.visit with
      | .pruned => advanceWithin? rest
      | .item v => some (some (.ok v), rest)
      | .failure e => some (some (.error e), [])
      | .branches values trail => advanceWithin? (f.next values trail ++ rest) := by
  rw [advanceWithin?]
  -- The match also binds an equation, which the termination needs, so its visit cannot be rewritten.
  split
  next h =>
    rw [f.visitWithin?_eq] at h
    cases h
  all_goals
    next h =>
      rw [f.visitWithin?_eq, Option.some.injEq] at h
      rw [h]

theorem advanceWithin?_eq (stack : List Frame) : advanceWithin? stack = some (advance stack) := by
  fun_induction advance stack with
  | case1 => rw [advanceWithin?]
  | case2 f rest hv ih =>
    rw [advanceWithin?_cons, hv]
    exact ih
  | case3 f rest v hv => rw [advanceWithin?_cons, hv]
  | case4 f rest e hv => rw [advanceWithin?_cons, hv]
  | case5 f rest values trail hv ih =>
    rw [advanceWithin?_cons, hv]
    exact ih

/-- All results that the frames of a stack still give, if all visits cut inside sequences only. -/
def resultsOfWithin? (stack : List Frame) : Option (List (Except WalkError Value)) :=
  match _h : advanceWithin? stack with
  | none => none
  | some (none, _) => some []
  | some (some r, rest) => (resultsOfWithin? rest).map (r :: ·)
termination_by workOf stack
decreasing_by
  exact workOf_advance_lt (Option.some.inj ((advanceWithin?_eq stack).symm.trans _h))

/-- All results that a walk still gives, if all visits cut inside sequences only. -/
def resultsWithin? (w : Walk) : Option (List (Except WalkError Value)) :=
  resultsOfWithin? w.stack

/-- The results are those of the searches, which do not give up. -/
theorem resultsOfWithin?_advance (stack : List Frame) :
    resultsOfWithin? stack =
      match advance stack with
      | (none, _) => some []
      | (some r, rest) => (resultsOfWithin? rest).map (r :: ·) := by
  rw [resultsOfWithin?]
  split
  next h =>
    rw [advanceWithin?_eq] at h
    cases h
  all_goals
    next h =>
      rw [advanceWithin?_eq, Option.some.injEq] at h
      rw [h]

theorem resultsOfWithin?_eq (stack : List Frame) :
    resultsOfWithin? stack = some (resultsOf stack) := by
  fun_induction resultsOf stack with
  | case1 stack rest h => rw [resultsOfWithin?_advance, h]
  | case2 stack r rest h ih =>
    rw [resultsOfWithin?_advance, h]
    exact congrArg (Option.map (r :: ·)) ih

/-- A walk cuts inside sequences only. -/
theorem resultsWithin?_eq (w : Walk) : w.resultsWithin? = some w.results :=
  resultsOfWithin?_eq w.stack

end Walk

/-- **Owned and shared values give the same, and neither is ever cut outside its ends.** An
operation makes the same of a value however it is held, and adds the same captures to a trail. A
walk gives the same from a document as from a default of that value. Neither operations nor walks
give up if every cut has to lie inside its sequence. And positions counted from the end of a
sequence do not wrap, as long as its length is a word. -/
theorem ownership_agrees :
    (∀ (op : Op) (v : Value) (trail : Trail), ∃ captured captured' : Trail,
      (op.apply (.owned v) trail).1.value = (op.apply (.shared v) trail).1.value ∧
      (op.apply (.owned v) trail).2 = trail ++ captured ∧
      (op.apply (.shared v) trail).2 = trail ++ captured' ∧
      captured.map Held.value = captured'.map Held.value) ∧
    (∀ (ops : List Op) (d : Default),
      (Walk.start ⟨ops⟩ d.value).results = (Walk.start ⟨.step (.default d) :: ops⟩ .null).results) ∧
    (∀ (op : Op) (h : Held) (trail : Trail), op.applyWithin? h trail = some (op.apply h trail)) ∧
    (∀ w : Walk, w.resultsWithin? = some w.results) ∧
    (∀ (n : Int64) (length : Nat), length ≤ Int64.maxValue.toInt →
      (fromStart n (Int64.ofNat length)).toInt =
        if n.toInt < 0 then length + n.toInt else n.toInt) := by
  refine ⟨fun op v trail => ?_, fun ops d => (results_default d ops).symm, Op.applyWithin?_eq,
    Walk.resultsWithin?_eq, fun n length h => toInt_fromStart h n⟩
  obtain ⟨captured, howned⟩ := op.prefix_apply_snd (.owned v) trail
  obtain ⟨captured', hshared⟩ := op.prefix_apply_snd (.shared v) trail
  have hheld : (Held.owned v).value = (Held.shared v).value := rfl
  obtain ⟨hvalue, htrail⟩ := op.value_apply_congr hheld (Eq.refl (trail.map Held.value))
  refine ⟨captured, captured', hvalue, howned.symm, hshared.symm, ?_⟩
  rw [← howned, ← hshared, List.map_append, List.map_append] at htrail
  exact List.append_cancel_left htrail

/-- The longest sequence there is a word for, and the position furthest from its end. -/
theorem ownership_agrees_longest :
    let length := 9223372036854775807
    (length : Nat) ≤ Int64.maxValue.toInt ∧
      (fromStart Int64.minValue (Int64.ofNat length)).toInt = -1 := by
  intro length
  have hlength : (length : Nat) ≤ Int64.maxValue.toInt := by decide
  obtain ⟨-, -, -, -, hposition⟩ := ownership_agrees
  exact ⟨hlength, (hposition Int64.minValue length hlength).trans (by decide)⟩

end DocPath
