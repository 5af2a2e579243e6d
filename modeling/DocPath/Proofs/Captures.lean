import DocPath.Proofs.Branches

/-!
# DocPath.Proofs.Captures

A capture pairs each value it captures with the results behind that value: a walk through it gives
the items of a walk up to the capture, each with each item of a walk from there
(`results_capture`).

The captured value only goes along from there on. It is in every item at the end and changes
nothing else (`meaning_trail`). And what is captured is never null, so a default behind the capture
has nothing to fill that the walk up to it would have dropped.
-/

namespace DocPath

variable {v : Value} {trail : List Value} {steps : List Step}

/-! ### Captures that are there before -/

theorem Step.captured_eq_nil {s : Step} (h : s.isCapture = false) (v : Value) :
    s.captured v = [] := by
  rw [← List.length_eq_zero_iff, s.length_captured, h]
  rfl

/-- Steps without a capture give the same with captures before them, but for these in each item. -/
theorem meaning_trail (hsteps : ∀ s ∈ steps, s.isCapture = false) (htrail : trail ≠ []) :
    meaning v trail (steps.map .step) =
      (meaning v [] (steps.map .step)).map (Except.map fun w => .sequence (trail ++ [w])) := by
  induction steps generalizing v with
  | nil =>
    have hleaf : leaf v trail = .sequence (trail ++ [v]) := by
      rw [leaf, List.isEmpty_eq_false_iff.2 htrail]
      rfl
    rw [List.map_nil, meaning, meaning, hleaf]
    cases v.isNull <;> rfl
  | cons s rest ih =>
    obtain ⟨hs, hrest⟩ := List.forall_mem_cons.1 hsteps
    rw [List.map_cons]
    obtain hprunes | ⟨hprunes, hindex⟩ | ⟨i, items, rfl, rfl⟩ | ⟨i, rfl, hprunes, hv⟩ :=
      s.cases_at v
    · rw [meaning_of_prunes hprunes, meaning_of_prunes hprunes]
      rfl
    · rw [meaning_of_step hprunes hindex, meaning_of_step hprunes hindex,
        Step.captured_eq_nil hs, List.append_nil, List.append_nil]
      exact ih hrest
    · rw [meaning_of_sequence, meaning_of_sequence, List.map_flatMap]
      exact List.flatMap_congr fun item _ => ih hrest
    · rw [meaning_of_failure i hprunes hv, meaning_of_failure i hprunes hv]
      rfl

/-- Behind a capture, each item is paired with the captured value. -/
theorem meaning_capture (hsteps : ∀ s ∈ steps, s.isCapture = false) (hv : v ≠ .null) :
    meaning v [] (.capture :: steps.map .step) =
      (meaning v [] (steps.map .step)).map (Except.map fun w => .sequence [v, w]) := by
  rw [Op.capture, meaning_of_step (Step.not_prunes_of_ne_null hv) rfl]
  exact meaning_trail hsteps (List.cons_ne_nil v [])

/-! ### Walks -/

/-- Behind an item of operations without captures there is a branch that ends with it. -/
theorem branch_of_mem_meaning {p : List Op}
    (hp : ∀ op ∈ p, op.isCapture = false ∧ op.isAlternatives = false) {root : Value}
    (h : .ok v ∈ meaning root [] p) : Branch root p v [] ∧ v ≠ .null := by
  obtain ⟨w, captures, hbranch, hw, hv⟩ :=
    exists_branch_of_mem_meaning (fun op hop => (hp op hop).2) h
  obtain rfl := hbranch.captures_eq_nil_iff.2 fun op hop => (hp op hop).1
  obtain rfl : v = w := hv
  exact ⟨hbranch, hw⟩

/-- Operations with a capture between them give the items of the first, each paired with what the
second give at it. -/
theorem meaning_append_capture {p q : List Op}
    (hp : ∀ op ∈ p, op.isCapture = false ∧ op.isAlternatives = false)
    (hq : ∀ op ∈ q, op.isCapture = false ∧ op.isAlternatives = false) (root : Value) :
    meaning root [] (p ++ [.capture] ++ q) = (meaning root [] p).flatMap (resultsOfItem fun v =>
      (meaning v [] q).map (Except.map fun w => .sequence [v, w])) := by
  obtain ⟨outer, rfl⟩ := exists_steps_of_not_alternatives fun op hop => (hp op hop).2
  obtain ⟨inner, rfl⟩ := exists_steps_of_not_alternatives fun op hop => (hq op hop).2
  have houter : ∀ s ∈ outer, s.isCapture = false :=
    fun s hs => (hp (.step s) (List.mem_map_of_mem hs)).1
  have hinner : ∀ s ∈ inner, s.isCapture = false :=
    fun s hs => (hq (.step s) (List.mem_map_of_mem hs)).1
  rw [List.append_assoc, List.singleton_append, meaning_append_eq_flatMap houter rfl]
  refine List.flatMap_congr fun r hr => ?_
  cases r with
  | error e => rfl
  | ok v =>
    -- An item is never null, where a default at the head of `q` could give something.
    exact meaning_capture hinner (branch_of_mem_meaning hp hr).2

/-- **A capture pairs each outer value with its own inner results.** Along operations `p`, a capture
and then `q`, a walk gives the items of a walk along `p`, each paired with each item of a walk along
`q` from there, up to the first failure, provided that neither captures anything else or has an
alternation. The two values of an item are from one branch. -/
theorem results_capture {p q : List Op}
    (hp : ∀ op ∈ p, op.isCapture = false ∧ op.isAlternatives = false)
    (hq : ∀ op ∈ q, op.isCapture = false ∧ op.isAlternatives = false) (root : Value) :
    (Walk.start ⟨p ++ [.capture] ++ q⟩ root).results =
        upToError ((Walk.start ⟨p⟩ root).results.flatMap (resultsOfItem fun v =>
          (Walk.start ⟨q⟩ v).results.map (Except.map fun w => .sequence [v, w]))) ∧
      ∀ item, .ok item ∈ (Walk.start ⟨p ++ [.capture] ++ q⟩ root).results →
        ∃ v w, item = .sequence [v, w] ∧ Branch root p v [] ∧ Branch v q w [] := by
  have hwalk : (Walk.start ⟨p ++ [.capture] ++ q⟩ root).results =
      upToError ((Walk.start ⟨p⟩ root).results.flatMap (resultsOfItem fun v =>
        (Walk.start ⟨q⟩ v).results.map (Except.map fun w => .sequence [v, w]))) := by
    simp only [Walk.results_start, Path.meaning, ← upToError_map]
    rw [meaning_append_capture hp hq, upToError_flatMap]
  refine ⟨hwalk, fun item hitem => ?_⟩
  rw [hwalk] at hitem
  obtain ⟨r, hr, hitem⟩ := List.mem_flatMap.1 (mem_of_mem_upToError hitem)
  cases r with
  | error e => cases List.mem_singleton.1 hitem
  | ok v =>
    obtain ⟨r, hr', hitem⟩ := List.mem_map.1 hitem
    cases r with
    | error e => cases hitem
    | ok w =>
      obtain rfl := Except.ok.inj hitem
      rw [Walk.results_start] at hr hr'
      exact ⟨v, w, rfl, (branch_of_mem_meaning hp (mem_of_mem_upToError hr)).1,
        (branch_of_mem_meaning hq (mem_of_mem_upToError hr')).1⟩

/-- The default behind the capture fills one result of the first branch, and the second branch
fails: `a[*]`, then `@`, then `.[*]b<false:bool>`. -/
theorem results_capture_failure :
    let p := [Op.key "a", .index (.one .wildcard)]
    let q := [Op.divider, .index (.one .wildcard), .key "b",
      .step (.default ⟨.bool false, .bool, "false"⟩)]
    let first := Value.sequence [.mapping [("b", .string "x")], .mapping []]
    let root := Value.mapping [("a", .sequence [first, .string "y", first])]
    let results := (Walk.start ⟨p ++ [.capture] ++ q⟩ root).results
    (∀ op ∈ p, op.isCapture = false ∧ op.isAlternatives = false) ∧
      (∀ op ∈ q, op.isCapture = false ∧ op.isAlternatives = false) ∧
      results = upToError ((Walk.start ⟨p⟩ root).results.flatMap (resultsOfItem fun v =>
        (Walk.start ⟨q⟩ v).results.map (Except.map fun w => .sequence [v, w]))) ∧
      results = [.ok (.sequence [first, .string "x"]), .ok (.sequence [first, .bool false]),
        .error (.notASequence "[*]" "str")] ∧
      ∃ v w, Value.sequence [first, .bool false] = .sequence [v, w] ∧
        Branch root p v [] ∧ Branch v q w [] := by
  intro p q first root results
  have hp : ∀ op ∈ p, op.isCapture = false ∧ op.isAlternatives = false := by decide
  have hq : ∀ op ∈ q, op.isCapture = false ∧ op.isAlternatives = false := by decide
  have hresults : results = [.ok (.sequence [first, .string "x"]),
      .ok (.sequence [first, .bool false]), .error (.notASequence "[*]" "str")] := by
    show (Walk.start _ _).results = _
    rw [Walk.results_start]
    rfl
  obtain ⟨hwalk, hbranches⟩ := results_capture hp hq root
  refine ⟨hp, hq, hwalk, hresults, hbranches _ ?_⟩
  show _ ∈ results
  rw [hresults]
  exact List.mem_cons_of_mem _ List.mem_cons_self

end DocPath
