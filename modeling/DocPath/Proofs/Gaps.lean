import DocPath.Proofs.Branches

/-!
# DocPath.Proofs.Gaps

A default at the end of a path only fills gaps. A branch that ends at null gives no item, and gives
one with the default; every other item, their order and the failure stay as they are
(`results_append_default`).

Both walks arrive at the same ends, so they are compared end by end along one list of arrivals
(`exists_gains`). What the longer walk has in addition stands between the items of the shorter one,
which is what `Gains` says of two lists.
-/

namespace DocPath

variable {α ε : Type} {v w root : Value} {trail captures : List Value} {ops : List Op} {d : Default}

/-! ### Lists that gain items -/

/-- One list has all items of another in their order, and between them more of a certain kind. -/
inductive Gains (P : α → Prop) : List α → List α → Prop
  | nil : Gains P [] []
  | keep {a : α} {few many : List α} : Gains P few many → Gains P (a :: few) (a :: many)
  | gain {a : α} {few many : List α} : P a → Gains P few many → Gains P few (a :: many)

namespace Gains

variable {P : α → Prop} {few many : List α}

theorem sublist (h : Gains P few many) : few.Sublist many := by
  induction h with
  | nil => exact .slnil
  | keep _ ih => exact ih.cons_cons _
  | gain _ _ ih => exact ih.cons _

end Gains

/-- The results with these items, and at their end this failure if there is one. -/
def resultsThen (items : List α) (failure : Option ε) : List (Except ε α) :=
  items.map .ok ++ failure.toList.map .error

/-! ### One end -/

/-- At its end a branch gives an item unless it is at null. -/
theorem goOn_nil (v : Value) (trail : List Value) :
    goOn [] (.ok (v, trail)) = if v.isNull then [] else [.ok (leaf v trail)] := rfl

/-- With a default there, it always gives one. -/
theorem goOn_default (hd : d.value ≠ .null) (v : Value) (trail : List Value) :
    goOn [.step (.default d)] (.ok (v, trail)) =
      [.ok (leaf (if v.isNull then d.value else v) trail)] := by
  have hon : (Step.default d).on v ≠ .null := by
    show (if v.isNull then d.value else v) ≠ .null
    split
    next => exact hd
    next hv => exact fun hnull => hv (Value.isNull_eq_true_iff.2 hnull)
  have hprunes : ¬ (Step.default d).Prunes v := by simp [Step.Prunes, Op.letsNullThrough]
  rw [goOn_ok, meaning_of_step hprunes rfl, meaning_nil hon]
  simp only [Step.on, Step.captured, List.append_nil]

/-! ### All ends -/

/-- At the same arrivals, a default gains an item for each null, and nothing else. -/
theorem exists_gains (hd : d.value ≠ .null) {P : Value → Prop}
    {found : List (Except WalkError (Value × List Value))}
    (hP : ∀ captures, .ok (.null, captures) ∈ found → P (leaf d.value captures)) :
    ∃ few many failure,
      upToError (found.flatMap (goOn [])) = resultsThen few failure ∧
      upToError (found.flatMap (goOn [.step (.default d)])) = resultsThen many failure ∧
      Gains P few many ∧
      (failure = none →
        ∀ captures, .ok (.null, captures) ∈ found → leaf d.value captures ∈ many) := by
  induction found with
  | nil => exact ⟨[], [], none, rfl, rfl, .nil, nofun⟩
  | cons a found ih =>
    cases a with
    | error e => exact ⟨[], [], some e, rfl, rfl, .nil, nofun⟩
    | ok a =>
      obtain ⟨v, trail⟩ := a
      obtain ⟨few, many, failure, hfew, hmany, hgains, hfilled⟩ :=
        ih fun captures hmem => hP captures (List.mem_cons_of_mem _ hmem)
      have hlater : ∀ item, failure = none → ∀ captures, .ok (.null, captures) ∈ found →
          leaf d.value captures ∈ item :: many :=
        fun item hnone captures hmem => List.mem_cons_of_mem item (hfilled hnone captures hmem)
      rw [List.flatMap_cons, List.flatMap_cons, goOn_nil, goOn_default hd]
      cases hv : v.isNull with
      | true =>
        obtain rfl := Value.isNull_eq_true_iff.1 hv
        refine ⟨few, leaf d.value trail :: many, failure, hfew, congrArg _ hmany,
          .gain (hP trail List.mem_cons_self) hgains, fun hnone captures hmem => ?_⟩
        rcases List.mem_cons.1 hmem with heq | hmem
        · obtain ⟨-, rfl⟩ := Prod.mk.inj (Except.ok.inj heq)
          exact List.mem_cons_self
        · exact hlater _ hnone captures hmem
      | false =>
        refine ⟨leaf v trail :: few, leaf v trail :: many, failure, congrArg _ hfew,
          congrArg _ hmany, .keep hgains, fun hnone captures hmem => ?_⟩
        rcases List.mem_cons.1 hmem with heq | hmem
        · obtain ⟨rfl, -⟩ := Prod.mk.inj (Except.ok.inj heq)
          cases hv
        · exact hlater _ hnone captures hmem

/-! ### Walks -/

/-- The item that a default gives at the end of a branch with these captures. -/
def gapItem (ops : List Op) (d : Default) (captures : List Value) : Value :=
  if ∀ op ∈ ops, op.isCapture = false then d.value else .sequence (captures ++ [d.value])

theorem leaf_eq_gapItem (h : Branch root ops w captures) :
    leaf d.value captures = gapItem ops d captures := by
  simp only [leaf, gapItem, List.isEmpty_iff, h.captures_eq_nil_iff]

/-- **A default at the end only fills gaps.** Along a path of steps and then a default, a walk gives
the items of a walk along the path alone, in their order, and ends with the same failure or, like
it, with none. Each item that it gives in addition is the value of the default, or the captures and
that value, at the end of a branch that ends at null; without a failure no such branch is left
out. -/
theorem results_append_default {p : Path} (hp : ∀ op ∈ p.ops, op.isAlternatives = false)
    (hd : d.value ≠ .null) (root : Value) : ∃ few many failure,
      (Walk.start p root).results = resultsThen few failure ∧
      (Walk.start ⟨p.ops ++ [.step (.default d)]⟩ root).results = resultsThen many failure ∧
      few.Sublist many ∧
      Gains (fun item => ∃ captures, Branch root p.ops .null captures ∧
        item = gapItem p.ops d captures) few many ∧
      (failure = none → ∀ captures, Branch root p.ops .null captures →
        gapItem p.ops d captures ∈ many) := by
  obtain ⟨ops⟩ := p
  obtain ⟨steps, rfl⟩ := exists_steps_of_not_alternatives hp
  have hends : ∀ captures, .ok (.null, captures) ∈ arrivals root [] steps ↔
      Branch root (steps.map .step) .null captures := fun captures => by
    simp [mem_arrivals_iff]
  have hgap : ∀ captures, .ok (.null, captures) ∈ arrivals root [] steps →
      ∃ captures', Branch root (steps.map .step) .null captures' ∧
        leaf d.value captures = gapItem (steps.map .step) d captures' := by
    intro captures hmem
    have hbranch := (hends captures).1 hmem
    exact ⟨captures, hbranch, leaf_eq_gapItem hbranch⟩
  obtain ⟨few, many, failure, hfew, hmany, hgains, hfilled⟩ := exists_gains (P := fun item =>
    ∃ captures, Branch root (steps.map .step) .null captures ∧
      item = gapItem (steps.map .step) d captures) hd hgap
  refine ⟨few, many, failure, ?_, ?_, hgains.sublist, hgains, ?_⟩
  · rw [Walk.results_start, Path.meaning, ← List.append_nil (steps.map Op.step), meaning_append]
    exact hfew
  · rw [Walk.results_start, Path.meaning, meaning_append]
    exact hmany
  · intro hnone captures hbranch
    rw [← leaf_eq_gapItem hbranch]
    exact hfilled hnone captures ((hends captures).2 hbranch)

/-- `[*]@[*]a` finds an entry in the first mapping and none in the second one, and then fails; with
the default behind it, the first branch gives two items. -/
theorem results_append_default_failure :
    let p : Path := ⟨[.index (.one .wildcard), .capture, .index (.one .wildcard), .key "a"]⟩
    let d : Default := ⟨.bool false, .bool, "false"⟩
    let first := Value.sequence [.mapping [("a", .bool true)], .mapping []]
    let root := Value.sequence [first, .string "x"]
    (∀ op ∈ p.ops, op.isAlternatives = false) ∧ d.value ≠ .null ∧
      (∃ few many failure,
        (Walk.start p root).results = resultsThen few failure ∧
        (Walk.start ⟨p.ops ++ [.step (.default d)]⟩ root).results = resultsThen many failure ∧
        few.Sublist many ∧
        Gains (fun item => ∃ captures, Branch root p.ops .null captures ∧
          item = gapItem p.ops d captures) few many ∧
        (failure = none → ∀ captures, Branch root p.ops .null captures →
          gapItem p.ops d captures ∈ many)) ∧
      (Walk.start ⟨p.ops ++ [.step (.default d)]⟩ root).results =
        [.ok (.sequence [first, .bool true]), .ok (.sequence [first, .bool false]),
          .error (.notASequence "[*]" "str")] := by
  intro p d first root
  have hp : ∀ op ∈ p.ops, op.isAlternatives = false := by decide
  have hd : d.value ≠ .null := nofun
  refine ⟨hp, hd, results_append_default hp hd root, ?_⟩
  rw [Walk.results_start]
  rfl

end DocPath
