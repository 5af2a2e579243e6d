import DocPath.Proofs.Building
import DocPath.Proofs.Positions
import DocPath.Proofs.Runs
import DocPath.Proofs.WalkMeaning

/-!
# DocPath.Proofs.OutOfRange

A single index whose position lies outside the sequence. As a step of an alternative it gives null,
just as a key does that the mapping does not have (`Index.on_outOfRange`), and a default that comes
next, or after steps that do nothing, takes its place (`runSteps_filled`). A walk resolves the index
in another way: it opens no branch at all (`Index.opened_outOfRange`), so that no step behind it is
ever reached and there is no null for a default to fill (`meaning_outOfRange`).
-/

namespace DocPath

variable {n : Int64} {items : List Value} {inert rest : List Step} {v : Value} {trail : List Value}

/-! ### The index -/

namespace Index

theorem select_outOfRange (h : OutOfRange n items.length) :
    (one (.at n)).select items.length = .element none :=
  congrArg Selection.element ((resolvePosition_eq_none_iff h.le).2 h)

/-- As a step of an alternative, an index out of range gives null. -/
theorem on_outOfRange (h : OutOfRange n items.length) :
    (one (.at n)).on (.sequence items) = .null := by
  rw [on, select_outOfRange h]

/-- In a walk, an index out of range opens no branch. -/
theorem opened_outOfRange (h : OutOfRange n items.length) : (one (.at n)).opened items = [] := by
  rw [opened, select_outOfRange h]

end Index

/-- Behind an index out of range nothing is reached. -/
theorem meaning_outOfRange (h : OutOfRange n items.length) (ops : List Op) :
    meaning (.sequence items) trail (.index (.one (.at n)) :: ops) = [] := by
  rw [Op.index, meaning_of_sequence, Index.opened_outOfRange h, List.flatMap_nil]

/-! ### Defaults for null -/

theorem runSteps_inert_append (h : ∀ s ∈ inert, s.acts = false) :
    runSteps v trail (inert ++ rest) = runSteps v trail rest := by
  induction inert with
  | nil => rfl
  | cons s inert ih =>
    obtain ⟨hs, hinert⟩ := List.forall_mem_cons.1 h
    rw [List.cons_append, runSteps_of_not_acts hs, ih hinert]

theorem arrivals_inert_append (h : ∀ s ∈ inert, s.acts = false) :
    arrivals v trail (inert ++ rest) = arrivals v trail rest := by
  induction inert with
  | nil => rfl
  | cons s inert ih =>
    obtain ⟨hs, hinert⟩ := List.forall_mem_cons.1 h
    rw [List.cons_append, arrivals_of_not_acts hs, ih hinert]

/-- A run fills null with the next default. -/
theorem runSteps_filled (h : ∀ s ∈ inert, s.acts = false) (d : Default) :
    (runSteps .null trail (inert ++ [.default d])).1 = d.value := by
  rw [runSteps_inert_append h]
  rfl

/-- And so does a walk, once it has got to null. -/
theorem arrivals_filled (h : ∀ s ∈ inert, s.acts = false) (d : Default) :
    arrivals .null trail (inert ++ [.default d]) = [.ok (d.value, trail)] := by
  have hfill : arrivals .null trail [.default d] = [.ok (d.value, trail ++ [])] := rfl
  rw [arrivals_inert_append h, hfill, List.append_nil]

/-- A key that the mapping does not have leads to null, and the walk goes on from there. -/
theorem meaning_absent {name : String} {entries : List (String × Value)}
    (h : entries.lookup name = none) (ops : List Op) :
    meaning (.mapping entries) trail (.key name :: ops) = meaning .null trail ops := by
  have hentry : (Step.key name).on (.mapping entries) = .null := by
    rw [Step.on, Value.entry, h, Option.getD_none]
  have hne : Value.mapping entries ≠ .null := by simp
  rw [Op.key, meaning_of_step (Step.not_prunes_of_ne_null hne) rfl, hentry]
  exact congrArg (meaning .null · ops) (List.append_nil trail)

/-- What is left of null at the end of a path is what a default makes of it. -/
theorem meaning_filled (hinert : ∀ s ∈ inert, s.acts = false) {d : Default} (hd : d.value ≠ .null) :
    meaning .null trail ((inert ++ [Step.default d]).map .step) = [.ok (leaf d.value trail)] := by
  rw [← List.append_nil (List.map _ _), meaning_append, arrivals_filled hinert,
    List.flatMap_singleton, goOn_ok, meaning_nil hd]

/-- **A default does not fill an index out of range.** The walk of a sequence gives nothing at all
behind such an index. Inside an alternative the same steps give the value of the default, however
the sequence is held; and the walk of a mapping gives it where the index is a missing key. -/
theorem outOfRange_unfilled (hn : OutOfRange n items.length)
    (hinert : ∀ s ∈ inert, s.acts = false) {d : Default} (hd : d.value ≠ .null) :
    (∀ rest, (Walk.start (.ofSteps (.index (.one (.at n)) :: rest)) (.sequence items)).results =
      []) ∧
    (∀ (h : Held) (trail : Trail) (paths : List (List Step)) (k : Nat), h.value = .sequence items →
      paths[k]? = some (.index (.one (.at n)) :: (inert ++ [.default d])) →
      (evaluate h trail paths).1[k]? = some d.value) ∧
    (∀ name entries, entries.lookup name = none →
      (Walk.start (.ofSteps (.key name :: (inert ++ [.default d]))) (.mapping entries)).results =
        [.ok d.value]) := by
  refine ⟨fun rest => ?_, fun h trail paths k hv hk => ?_, fun name entries hname => ?_⟩
  · rw [Walk.results_start, Path.meaning, Path.ofSteps, List.map_cons]
    exact congrArg upToError (meaning_outOfRange hn _)
  · have hrun : (runSteps (.sequence items) [] (.index (.one (.at n)) ::
        (inert ++ [.default d]))).1 = d.value := by
      rw [runSteps, Step.on, Index.on_outOfRange hn]
      exact runSteps_filled hinert d
    rw [(value_evaluate paths h trail).1, runAlternatives_fst, List.getElem?_map, hk, hv]
    exact congrArg some hrun
  · rw [Walk.results_start, Path.meaning, Path.ofSteps, List.map_cons]
    exact congrArg upToError ((meaning_absent hname _).trans (meaning_filled hinert hd))

/-- One position before the only element, with a boundary in front of the default. -/
theorem outOfRange_unfilled_divider :
    let d : Default := ⟨.bool true, .bool, "true"⟩
    let filled : List Step := [.divider, .default d]
    let sequence : Value := .sequence [.string "a"]
    (Walk.start (.ofSteps (.index (.one (.at (-2))) :: filled)) sequence).results = [] ∧
      (evaluate (.owned sequence) [] [.index (.one (.at (-2))) :: filled]).1[0]? = some d.value ∧
      (Walk.start (.ofSteps (.key "a" :: filled)) (.mapping [])).results = [.ok d.value] := by
  intro d filled sequence
  have hn : OutOfRange (-2) [Value.string "a"].length := Or.inr (by decide)
  have hinert : ∀ s ∈ [Step.divider], s.acts = false := List.forall_mem_singleton.2 rfl
  obtain ⟨hwalk, hevaluate, habsent⟩ := outOfRange_unfilled hn hinert (d := d) nofun
  exact ⟨hwalk _, hevaluate _ _ _ 0 rfl rfl, habsent _ _ rfl⟩

end DocPath
