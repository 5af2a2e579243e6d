import DocPath.Proofs.Composition

/-!
# DocPath.Proofs.Branches

A single **branch** of a walk: operations lead from a value to another one, with one element chosen
at each index, and capture values on the way (`Branch`). The relation knows nothing of the order in
which a walk visits its branches, nor of the captures made before.

What steps arrive at are the ends of their branches (`mem_arrivals_iff`), so behind every item of a
walk there is one branch that its end and all its captures are from
(`exists_branch_of_mem_meaning`).
-/

namespace DocPath

/-- Operations lead from a value to another one, and capture values on the way. -/
inductive Branch : Value → List Op → Value → List Value → Prop
  | nil (v : Value) : Branch v [] v []
  | cons {v v' w : Value} {s : Step} {ops : List Op} {captures : List Value} :
      ¬ s.Prunes v → s.LeadsTo v v' → Branch v' ops w captures →
      Branch v (.step s :: ops) w (s.captured v ++ captures)

variable {v v' w : Value} {trail captures : List Value} {s : Step} {steps : List Step}
  {ops : List Op}

/-! ### Captures -/

/-- A branch captures once for each capturing operation. -/
theorem Branch.length_captures (h : Branch v ops w captures) :
    captures.length = ops.countP Op.isCapture := by
  induction h with
  | nil => rfl
  | @cons v v' w s ops captures _ _ _ ih =>
    have hop : (Op.step s).isCapture = s.isCapture := rfl
    rw [List.length_append, s.length_captured, ih, List.countP_cons, hop]
    omega

theorem Branch.captures_eq_nil_iff (h : Branch v ops w captures) :
    captures = [] ↔ ∀ op ∈ ops, op.isCapture = false := by
  rw [← List.length_eq_zero_iff, h.length_captures, List.countP_eq_zero]
  simp only [Bool.not_eq_true]

/-! ### Arrivals -/

/-- The arrivals of steps are the ends of their branches. -/
theorem mem_arrivals_iff {a : Value × List Value} : .ok a ∈ arrivals v trail steps ↔
    ∃ captures, Branch v (steps.map .step) a.1 captures ∧ a.2 = trail ++ captures := by
  induction steps generalizing v trail with
  | nil =>
    constructor
    · intro h
      obtain rfl := Except.ok.inj (List.mem_singleton.1 h)
      exact ⟨[], .nil v, (List.append_nil trail).symm⟩
    · rintro ⟨captures, hbranch, ha⟩
      obtain ⟨w, trail'⟩ := a
      cases hbranch
      obtain rfl : trail' = trail := ha.trans (List.append_nil trail)
      exact List.mem_singleton.2 rfl
  | cons s rest ih =>
    constructor
    · intro h
      obtain ⟨hprunes, v', hleads, h⟩ := mem_arrivals_cons_iff.1 h
      obtain ⟨captures, hbranch, ha⟩ := ih.1 h
      exact ⟨s.captured v ++ captures, .cons hprunes hleads hbranch, by
        rw [ha, List.append_assoc]⟩
    · rintro ⟨captures, hbranch, ha⟩
      cases hbranch with
      | cons hprunes hleads hrest =>
        refine mem_arrivals_cons_iff.2 ⟨hprunes, _, hleads, ih.2 ⟨_, hrest, ?_⟩⟩
        rw [ha, List.append_assoc]

/-! ### Items -/

/-- Behind every item there is a branch that its end and its captures are from. -/
theorem exists_branch_of_mem_meaning {item : Value} (hops : ∀ op ∈ ops, op.isAlternatives = false)
    (h : .ok item ∈ meaning v [] ops) :
    ∃ w captures, Branch v ops w captures ∧ w ≠ .null ∧ item = leaf w captures := by
  obtain ⟨steps, rfl⟩ := exists_steps_of_not_alternatives hops
  rw [← List.append_nil (steps.map Op.step), meaning_append, List.mem_flatMap] at h
  obtain ⟨a, ha, hitem⟩ := h
  cases a with
  | error e => cases List.mem_singleton.1 hitem
  | ok a =>
    obtain ⟨captures, hbranch, hcaptures⟩ := mem_arrivals_iff.1 ha
    rw [List.nil_append] at hcaptures
    rw [goOn_ok, hcaptures, meaning] at hitem
    cases hnull : a.1.isNull with
    | true =>
      rw [hnull] at hitem
      cases hitem
    | false =>
      rw [hnull] at hitem
      refine ⟨a.1, captures, hbranch, ?_, Except.ok.inj (List.mem_singleton.1 hitem)⟩
      intro hv
      rw [hv] at hnull
      cases hnull

end DocPath
