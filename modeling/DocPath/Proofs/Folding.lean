import DocPath.Proofs.Composition
import DocPath.Proofs.Threading

/-!
# DocPath.Proofs.Folding

Walking against applying one operation after the other, where nothing fans out. Applied by
themselves, operations let null through to any default that comes later; a walk ends there unless a
default comes first among the operations left. So a walk gives the value and the trail to which the
operations lead, or nothing if they lead through a null that no default is about to fill
(`results_unbranched`).

Whether they do is a matter of all places along the operations (`RunsDry`), and is settled from the
first place on: there, or from what the first operation makes of the value (`runsDry_cons`).
-/

namespace DocPath

variable {h : Held} {trail : Trail} {op : Op} {ops : List Op}

/-! ### Nulls that nothing fills -/

/-- Whether operations lead to null at a place where no default comes first among those left. -/
def RunsDry (h : Held) (trail : Trail) (ops : List Op) : Prop :=
  ∃ n ≤ ops.length, (applyOps h trail (ops.take n)).1.isNull = true ∧
    beginsWithDefault (ops.drop n) = false

instance (h : Held) (trail : Trail) (ops : List Op) : Decidable (RunsDry h trail ops) :=
  inferInstanceAs (Decidable (∃ n ≤ ops.length, _ ∧ _))

theorem runsDry_nil : RunsDry h trail [] ↔ h.isNull = true := by
  constructor
  · rintro ⟨n, hn, hnull, -⟩
    rwa [List.take_nil] at hnull
  · intro hnull
    exact ⟨0, Nat.le_refl 0, hnull, rfl⟩

theorem runsDry_cons : RunsDry h trail (op :: ops) ↔
    (h.isNull = true ∧ beginsWithDefault (op :: ops) = false) ∨
      RunsDry (op.apply h trail).1 (op.apply h trail).2 ops := by
  constructor
  · rintro ⟨n, hn, hnull, hrest⟩
    cases n with
    | zero => exact Or.inl ⟨hnull, hrest⟩
    | succ n => exact Or.inr ⟨n, Nat.le_of_succ_le_succ hn, hnull, hrest⟩
  · rintro (⟨hnull, hrest⟩ | ⟨n, hn, hnull, hrest⟩)
    · exact ⟨0, Nat.zero_le _, hnull, hrest⟩
    · exact ⟨n + 1, Nat.succ_le_succ hn, hnull, hrest⟩

/-- A step that ends a branch with null does so because no default comes first. -/
theorem Step.Prunes.runsDry {s : Step} (hprunes : s.Prunes h.value) :
    RunsDry h trail (.step s :: ops) := by
  rw [Step.Prunes, Bool.and_eq_true] at hprunes
  refine runsDry_cons.2 (Or.inl ⟨hprunes.1, ?_⟩)
  cases s with
  | default => cases hprunes.2
  | divider => cases hprunes.2
  | anyEntry => cases hprunes.2
  | _ => rfl

/-- What lets null through without filling it leaves the question to the operations behind it. -/
theorem runsDry_step_iff {s : Step} (hprunes : ¬ s.Prunes h.value) :
    RunsDry h trail (.step s :: ops) ↔ RunsDry (s.apply h trail).1 (s.apply h trail).2 ops := by
  rw [runsDry_cons]
  refine or_iff_right_of_imp ?_
  rintro ⟨hnull, hrest⟩
  have hpass : (Op.step s).letsNullThrough = true := by
    have hvalue : h.value.isNull = true := hnull
    simpa [Step.Prunes, hvalue] using hprunes
  cases s with
  | default => cases hrest
  | divider => exact ⟨0, Nat.zero_le _, hnull, hrest⟩
  | anyEntry => exact ⟨0, Nat.zero_le _, hnull, hrest⟩
  | _ => cases hpass

/-! ### Walking and applying -/

/-- Whether the operation is neither an index nor an alternation. -/
def Op.isUnbranched : Op → Bool
  | step (.index _) => false
  | step _ => true
  | alternatives _ => false

/-- Along operations that do not fan out, a branch gives nothing if they run dry, and otherwise what
they lead to. -/
theorem meaning_unbranched (hops : ∀ op ∈ ops, op.isUnbranched = true) (h : Held) (trail : Trail) :
    (RunsDry h trail ops → meaning h.value (trail.map Held.value) ops = []) ∧
      (¬ RunsDry h trail ops → meaning h.value (trail.map Held.value) ops =
        [.ok (finish (applyOps h trail ops).1 (applyOps h trail ops).2)]) := by
  induction ops generalizing h trail with
  | nil =>
    rw [runsDry_nil, applyOps_nil, finish_eq_leaf]
    constructor
    · exact fun hnull => if_pos hnull
    · exact fun hnull => if_neg hnull
  | cons op ops ih =>
    obtain ⟨hop, hrest⟩ := List.forall_mem_cons.1 hops
    cases op with
    | alternatives => cases hop
    | step s =>
      have hindex : s.isIndex = false := by
        cases s with
        | index => cases hop
        | _ => rfl
      by_cases hprunes : s.Prunes h.value
      · exact ⟨fun _ => meaning_of_prunes hprunes, fun hdry => absurd hprunes.runsDry hdry⟩
      · obtain ⟨hvalue, htrail⟩ := s.value_apply h trail
        rw [runsDry_step_iff hprunes, meaning_of_step hprunes hindex, ← hvalue, ← htrail]
        exact ih hrest _ _

/-- **A walk without fan-out is a fold.** Let keys, defaults, captures, boundaries and wildcards for
every entry, applied in order, make a value and a trail of a document, however it is held. Along
them, a walk gives nothing at all if they lead to null at a place where no default comes first among
those left, boundaries and wildcards aside. Otherwise it gives one item and no failure: the value if
the trail is empty, or else the trail and the value. -/
theorem results_unbranched {p : List Op} (hp : ∀ op ∈ p, op.isUnbranched = true) (h : Held) :
    (RunsDry h [] p → (Walk.start ⟨p⟩ h.value).results = []) ∧
      (¬ RunsDry h [] p → ∃ x trail, applyOps h [] p = (x, trail) ∧
        (Walk.start ⟨p⟩ h.value).results =
          [.ok (if trail = [] then x.value
            else .sequence (trail.map Held.value ++ [x.value]))]) := by
  obtain ⟨hdry, hfold⟩ := meaning_unbranched hp h []
  rw [List.map_nil] at hdry hfold
  rw [Walk.results_start, Path.meaning]
  constructor
  · intro hruns
    rw [hdry hruns]
    rfl
  · intro hruns
    refine ⟨_, _, rfl, ?_⟩
    rw [hfold hruns, finish]
    simp only [upToError_ok, upToError_nil, List.isEmpty_iff]
    rfl

/-- `a.b<true:bool>` leads on from a missing `a` to the default, but a walk does not get there. With
a mapping for `a`, it does. -/
theorem results_unbranched_dry :
    let p := [Op.key "a", .divider, .key "b", .step (.default ⟨.bool true, .bool, "true"⟩)]
    let empty := Held.shared (.mapping [])
    let nested := Held.owned (.mapping [("a", .mapping [])])
    (∀ op ∈ p, op.isUnbranched = true) ∧
      (RunsDry empty [] p ∧ (applyOps empty [] p).1.value = .bool true ∧
        (Walk.start ⟨p⟩ empty.value).results = []) ∧
      (¬ RunsDry nested [] p ∧ (Walk.start ⟨p⟩ nested.value).results = [.ok (.bool true)]) := by
  intro p empty nested
  have hp : ∀ op ∈ p, op.isUnbranched = true := by decide
  have hempty : RunsDry empty [] p := by decide
  have hnested : ¬ RunsDry nested [] p := by decide
  refine ⟨hp, ⟨hempty, rfl, (results_unbranched hp empty).1 hempty⟩, hnested, ?_⟩
  obtain ⟨x, trail, hrun, hwalk⟩ := (results_unbranched hp nested).2 hnested
  obtain ⟨rfl, rfl⟩ := Prod.mk.inj hrun
  exact hwalk

end DocPath
