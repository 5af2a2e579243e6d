import DocPath.Proofs.Meaning
import Mathlib.Data.List.Basic

/-!
# DocPath.Proofs.Arrivals

Where steps lead. The meaning of steps before other operations is that of these operations at each
of the **arrivals** of the steps (`meaning_append`), so what is proved of arrivals holds whatever
comes after the steps.

Two questions about arrivals are answered for all steps at once. What can be said of each of them:
how many captures it has, and when it is not null (`length_of_mem_arrivals`,
`ne_null_of_mem_arrivals`). And which there are: if each index opens some sequence, then for every
value there is a document from which the steps lead to that value and nowhere else
(`exists_arrivals`), null included unless they end with a step that rules it out
(`exists_arrivals_null`).
-/

namespace DocPath

/-- Where a branch leads through steps: the values and captures with which it arrives, in order, and
its failures. -/
def arrivals (v : Value) (trail : List Value) :
    List Step → List (Except WalkError (Value × List Value))
  | [] => [.ok (v, trail)]
  | s :: rest =>
    if v.isNull && !(Op.step s).letsNullThrough then []
    else match s with
      | .index i =>
        match v with
        | .sequence items => (i.opened items).flatMap fun item => arrivals item trail rest
        | _ => [.error (.notASequence i.text v.kindName)]
      | s => arrivals (s.on v) (trail ++ s.captured v) rest

/-- What operations give at an arrival. -/
def goOn (ops : List Op) : Except WalkError (Value × List Value) → List (Except WalkError Value)
  | .error e => [.error e]
  | .ok (v, trail) => meaning v trail ops

theorem goOn_ok (ops : List Op) (a : Value × List Value) :
    goOn ops (.ok a) = meaning a.1 a.2 ops := rfl

/-- Whether the step is an index. -/
def Step.isIndex : Step → Bool
  | index _ => true
  | _ => false

/-! ### The equations of arrivals and meanings -/

variable {v : Value} {trail : List Value} {s : Step} {rest : List Step}

/-- Whether the step ends a branch with the value. -/
def Step.Prunes (v : Value) (s : Step) : Prop :=
  (v.isNull && !(Op.step s).letsNullThrough) = true

theorem Step.not_prunes_of_ne_null (h : v ≠ .null) : ¬ s.Prunes v := by
  intro hprunes
  rw [Step.Prunes, Bool.and_eq_true, Value.isNull_eq_true_iff] at hprunes
  exact h hprunes.1

theorem arrivals_of_prunes (h : s.Prunes v) : arrivals v trail (s :: rest) = [] :=
  if_pos h

theorem arrivals_of_step (h : ¬ s.Prunes v) (hs : s.isIndex = false) :
    arrivals v trail (s :: rest) = arrivals (s.on v) (trail ++ s.captured v) rest := by
  cases s with
  | index => simp [Step.isIndex] at hs
  | _ => exact if_neg h

theorem arrivals_of_sequence (i : Index) (items : List Value) :
    arrivals (.sequence items) trail (.index i :: rest) =
      (i.opened items).flatMap fun item => arrivals item trail rest := rfl

theorem arrivals_of_failure (i : Index) (h : ¬ (Step.index i).Prunes v)
    (hv : v.isSequence = false) :
    arrivals v trail (.index i :: rest) = [.error (.notASequence i.text v.kindName)] := by
  cases v with
  | null => exact absurd rfl h
  | sequence => simp [Value.isSequence] at hv
  | _ => rfl

/-- What is left of a branch at its end. -/
theorem meaning_nil (hv : v ≠ .null) : meaning v trail [] = [.ok (leaf v trail)] := by
  rw [meaning, if_neg]
  rwa [Value.isNull_eq_true_iff]

theorem meaning_of_prunes {ops : List Op} (h : s.Prunes v) :
    meaning v trail (.step s :: ops) = [] :=
  if_pos h

theorem meaning_of_step {ops : List Op} (h : ¬ s.Prunes v) (hs : s.isIndex = false) :
    meaning v trail (.step s :: ops) = meaning (s.on v) (trail ++ s.captured v) ops := by
  cases s with
  | index => simp [Step.isIndex] at hs
  | _ => exact if_neg h

theorem meaning_of_sequence (i : Index) (items : List Value) (ops : List Op) :
    meaning (.sequence items) trail (.step (.index i) :: ops) =
      (i.opened items).flatMap fun item => meaning item trail ops := rfl

theorem meaning_of_failure (i : Index) {ops : List Op} (h : ¬ (Step.index i).Prunes v)
    (hv : v.isSequence = false) : meaning v trail (.step (.index i) :: ops) =
      [.error (.notASequence i.text v.kindName)] := by
  cases v with
  | null => exact absurd rfl h
  | sequence => simp [Value.isSequence] at hv
  | _ => rfl

/-- What an alternation means. -/
theorem meaning_alternation (v : Value) (trail : List Value) (paths : List (List Step))
    (rest : List Op) : meaning v trail (.alternatives paths :: rest) =
      if v.isNull then [] else [.ok (.sequence
        ((runAlternatives v trail paths).2 ++ (runAlternatives v trail paths).1))] := by
  rw [meaning]
  cases v.isNull <;> rfl

/-- What a step can do at a value: end the branch, lead on as one branch, fan out, or fail. -/
theorem Step.cases_at (s : Step) (v : Value) : s.Prunes v ∨
    (¬ s.Prunes v ∧ s.isIndex = false) ∨
    (∃ i items, s = .index i ∧ v = .sequence items) ∨
    ∃ i, s = .index i ∧ ¬ (Step.index i).Prunes v ∧ v.isSequence = false := by
  by_cases hprunes : s.Prunes v
  · exact Or.inl hprunes
  refine Or.inr ?_
  cases s with
  | index i =>
    cases v with
    | sequence items => exact Or.inr (Or.inl ⟨i, items, rfl, rfl⟩)
    | _ => exact Or.inr (Or.inr ⟨i, rfl, hprunes, rfl⟩)
  | _ => exact Or.inl ⟨hprunes, rfl⟩

/-- What comes after steps means what it means at each of their arrivals. -/
theorem meaning_append (v : Value) (trail : List Value) (steps : List Step) (ops : List Op) :
    meaning v trail (steps.map .step ++ ops) = (arrivals v trail steps).flatMap (goOn ops) := by
  induction steps generalizing v trail with
  | nil =>
    rw [arrivals, List.flatMap_singleton]
    rfl
  | cons s rest ih =>
    rw [List.map_cons, List.cons_append]
    obtain hprunes | ⟨hprunes, hs⟩ | ⟨i, items, rfl, rfl⟩ | ⟨i, rfl, hprunes, hv⟩ := s.cases_at v
    · rw [arrivals_of_prunes hprunes, meaning_of_prunes hprunes]
      rfl
    · rw [arrivals_of_step hprunes hs, meaning_of_step hprunes hs]
      exact ih _ _
    · rw [arrivals_of_sequence, meaning_of_sequence, List.flatMap_assoc]
      exact List.flatMap_congr fun item _ => ih item trail
    · rw [arrivals_of_failure i hprunes hv, meaning_of_failure i hprunes hv]
      rfl

/-- Operations that mean the same everywhere mean the same after steps. -/
theorem meaning_append_of_eq (steps : List Step) {ops ops' : List Op}
    (h : ∀ v trail, meaning v trail ops = meaning v trail ops') :
    meaning v trail (steps.map .step ++ ops) = meaning v trail (steps.map .step ++ ops') := by
  rw [meaning_append, meaning_append]
  refine List.flatMap_congr fun a _ => ?_
  cases a with
  | error e => rfl
  | ok a => exact h a.1 a.2

/-! ### Steps that do nothing -/

/-- Whether the step does anything to a walk. -/
def Step.acts : Step → Bool
  | divider => false
  | anyEntry => false
  | _ => true

/-- A step that does nothing leaves every value as it is and lets null through. -/
theorem Step.of_not_acts (h : s.acts = false) :
    s.isIndex = false ∧ s.on v = v ∧ s.captured v = [] ∧ ¬ s.Prunes v := by
  cases s with
  | divider => exact ⟨rfl, rfl, rfl, by simp [Step.Prunes, Op.letsNullThrough]⟩
  | anyEntry => exact ⟨rfl, rfl, rfl, by simp [Step.Prunes, Op.letsNullThrough]⟩
  | _ => simp [Step.acts] at h

theorem arrivals_of_not_acts (h : s.acts = false) :
    arrivals v trail (s :: rest) = arrivals v trail rest := by
  obtain ⟨hindex, hon, hcaptured, hprunes⟩ := Step.of_not_acts (v := v) h
  rw [arrivals_of_step hprunes hindex, hon, hcaptured, List.append_nil]

theorem meaning_of_not_acts (h : s.acts = false) (ops : List Op) :
    meaning v trail (.step s :: ops) = meaning v trail ops := by
  obtain ⟨hindex, hon, hcaptured, hprunes⟩ := Step.of_not_acts (v := v) h
  rw [meaning_of_step hprunes hindex, hon, hcaptured, List.append_nil]

theorem runSteps_of_not_acts (h : s.acts = false) :
    runSteps v trail (s :: rest) = runSteps v trail rest := by
  obtain ⟨-, hon, hcaptured, -⟩ := Step.of_not_acts (v := v) h
  rw [runSteps, hon, hcaptured, List.append_nil]

/-! ### What holds of every arrival -/

/-- Whether the step leads from a value to another one. -/
def Step.LeadsTo (v v' : Value) : Step → Prop
  | index i => ∃ items, v = .sequence items ∧ v' ∈ i.opened items
  | s => v' = s.on v

theorem Step.leadsTo_iff (hs : s.isIndex = false) {v' : Value} : s.LeadsTo v v' ↔ v' = s.on v := by
  cases s with
  | index => cases hs
  | _ => rfl

/-- An arrival after a step and others is an arrival of the others, from where the step leads to. -/
theorem mem_arrivals_cons_iff {a : Value × List Value} : .ok a ∈ arrivals v trail (s :: rest) ↔
    ¬ s.Prunes v ∧ ∃ v', s.LeadsTo v v' ∧ .ok a ∈ arrivals v' (trail ++ s.captured v) rest := by
  obtain hprunes | ⟨hprunes, hs⟩ | ⟨i, items, rfl, rfl⟩ | ⟨i, rfl, hprunes, hv⟩ := s.cases_at v
  · rw [arrivals_of_prunes hprunes]
    exact ⟨nofun, fun h => absurd hprunes h.1⟩
  · simp [arrivals_of_step hprunes hs, Step.leadsTo_iff hs, hprunes]
  · have hprunes : ¬ (Step.index i).Prunes (.sequence items) := Step.not_prunes_of_ne_null nofun
    have hcaptured : trail ++ (Step.index i).captured (.sequence items) = trail :=
      List.append_nil trail
    rw [arrivals_of_sequence, List.mem_flatMap, hcaptured]
    constructor
    · rintro ⟨item, hitem, h⟩
      exact ⟨hprunes, item, ⟨items, rfl, hitem⟩, h⟩
    · rintro ⟨-, item, ⟨items', hitems, hitem⟩, h⟩
      obtain rfl := Value.sequence.inj hitems
      exact ⟨item, hitem, h⟩
  · rw [arrivals_of_failure i hprunes hv]
    constructor
    · intro h
      cases List.mem_singleton.1 h
    · rintro ⟨-, v', ⟨items, rfl, -⟩, -⟩
      cases hv

/-- Whether the step captures the value. -/
def Step.isCapture : Step → Bool
  | capture => true
  | _ => false

theorem Step.length_captured (s : Step) (v : Value) :
    (s.captured v).length = if s.isCapture then 1 else 0 := by
  cases s <;> rfl

/-- Every arrival has one capture more for each capturing step. -/
theorem length_of_mem_arrivals {steps : List Step} {a : Value × List Value}
    (h : .ok a ∈ arrivals v trail steps) :
    a.2.length = trail.length + steps.countP Step.isCapture := by
  induction steps generalizing v trail with
  | nil =>
    obtain rfl := Except.ok.inj (List.mem_singleton.1 h)
    rfl
  | cons s rest ih =>
    obtain ⟨-, v', -, h⟩ := mem_arrivals_cons_iff.1 h
    rw [ih h, List.length_append, s.length_captured, List.countP_cons]
    omega

/-- Steps whose indexes each open something of some sequence. -/
def Opens (steps : List Step) : Prop :=
  ∀ i, .index i ∈ steps → ∃ items, i.opened items ≠ []

/-- Steps arrive somewhere only if they open. -/
theorem opens_of_mem_arrivals {steps : List Step} {a : Value × List Value}
    (h : .ok a ∈ arrivals v trail steps) : Opens steps := by
  induction steps generalizing v trail with
  | nil => exact nofun
  | cons s rest ih =>
    obtain ⟨-, v', hleads, h⟩ := mem_arrivals_cons_iff.1 h
    intro i hi
    rcases List.mem_cons.1 hi with rfl | hi
    · obtain ⟨items, -, hitem⟩ := hleads
      exact ⟨items, List.ne_nil_of_mem hitem⟩
    · exact ih h i hi

/-- Whether no null is left by the step. -/
def Step.rulesOutNull : Step → Bool
  | default _ => true
  | capture => true
  | _ => false

/-- The last step that does anything, if there is one, leaves no null. -/
def EndsNonNull (steps : List Step) : Prop :=
  ∃ s, (steps.filter Step.acts).getLast? = some s ∧ s.rulesOutNull = true

theorem endsNonNull_cons : EndsNonNull (s :: rest) ↔
    EndsNonNull rest ∨ rest.filter Step.acts = [] ∧ s.rulesOutNull = true := by
  have hacts : s.rulesOutNull = true → s.acts = true := by
    intro h
    cases s <;> first | rfl | simp [Step.rulesOutNull] at h
  rw [EndsNonNull, EndsNonNull, List.filter_cons]
  cases hrest : rest.filter Step.acts with
  | nil =>
    cases hs : s.acts with
    | false =>
      have hnot : s.rulesOutNull = false := by
        rw [← Bool.not_eq_true]
        intro h
        rw [hacts h] at hs
        simp at hs
      simp [hnot]
    | true => simp
  | cons t ts =>
    cases s.acts with
    | false => simp
    | true => simp [List.getLast?_cons_cons]

/-- What a default leaves is not null if the default itself is not. -/
theorem Step.on_ne_null (hs : s.rulesOutNull = true) (hprunes : ¬ s.Prunes v)
    (hdefault : ∀ d, s = .default d → d.value ≠ .null) : s.on v ≠ .null := by
  cases s with
  | default d =>
    rw [Step.on]
    split
    next => exact hdefault d rfl
    next h => rwa [Value.isNull_eq_true_iff] at h
  | capture =>
    intro heq
    subst heq
    exact hprunes rfl
  | _ => simp [Step.rulesOutNull] at hs

/-- No arrival is null if the last step that does anything leaves no null, or nothing is done to a
value that is not null. -/
theorem ne_null_of_mem_arrivals {steps : List Step} {a : Value × List Value}
    (hdefault : ∀ d, .default d ∈ steps → d.value ≠ .null)
    (hends : EndsNonNull steps ∨ steps.filter Step.acts = [] ∧ v ≠ .null)
    (h : .ok a ∈ arrivals v trail steps) : a.1 ≠ .null := by
  induction steps generalizing v trail with
  | nil =>
    obtain rfl := Except.ok.inj (List.mem_singleton.1 h)
    rcases hends with ⟨s, hs, -⟩ | ⟨-, hv⟩
    · simp at hs
    · exact hv
  | cons s rest ih =>
    have hrest : ∀ d, .default d ∈ rest → d.value ≠ .null :=
      fun d hd => hdefault d (List.mem_cons_of_mem s hd)
    obtain ⟨hprunes, v', hleads, h⟩ := mem_arrivals_cons_iff.1 h
    refine ih hrest ?_ h
    rcases hends with hends | ⟨hnone, hv⟩
    · rcases endsNonNull_cons.1 hends with hends | ⟨hnone, hs⟩
      · exact Or.inl hends
      · have hv' : v' = s.on v := by
          cases s with
          | index => simp [Step.rulesOutNull] at hs
          | _ => exact hleads
        have hself : ∀ d, s = .default d → d.value ≠ .null := by
          rintro d rfl
          exact hdefault d List.mem_cons_self
        exact Or.inr ⟨hnone, hv' ▸ Step.on_ne_null hs hprunes hself⟩
    · rw [List.filter_cons] at hnone
      cases s with
      | divider => exact Or.inr ⟨hnone, hleads ▸ hv⟩
      | anyEntry => exact Or.inr ⟨hnone, hleads ▸ hv⟩
      | _ => simp [Step.acts] at hnone

/-! ### Documents from which steps arrive -/

/-- An index that opens something opens any given value, from some sequence. -/
theorem Index.exists_opened {i : Index} (h : ∃ items, i.opened items ≠ []) (v : Value) :
    ∃ items n, n ≠ 0 ∧ i.opened items = List.replicate n v := by
  obtain ⟨items, hne⟩ := h
  rw [Index.opened] at hne
  cases hselect : i.select items.length with
  | all =>
    rw [hselect] at hne
    refine ⟨List.replicate items.length v, items.length, ?_, ?_⟩
    · simpa using hne
    · rw [Index.opened, List.length_replicate, hselect]
  | slice start stop =>
    rw [hselect] at hne
    refine ⟨List.replicate items.length v, min stop items.length - start, ?_, ?_⟩
    · have hlength := List.length_pos_of_ne_nil hne
      rw [List.length_drop, List.length_take] at hlength
      omega
    · rw [Index.opened, List.length_replicate, hselect]
      simp only [List.take_replicate, List.drop_replicate]
  | element found =>
    cases found with
    | none =>
      rw [hselect] at hne
      exact absurd rfl hne
    | some n =>
      -- A sequence that is selected is opened itself, so the value stands in one of its own.
      refine ⟨List.replicate items.length (.sequence [v]), 1, Nat.one_ne_zero, ?_⟩
      have hlt := Index.select_element_lt hselect
      rw [Index.opened, List.length_replicate, hselect]
      simp [hlt]

/-- One step further back from a document: one from which the step leads to it, and nowhere else. -/
theorem exists_arrivals_cons {w root : Value} {captured : List Value} {n : Nat}
    (hindex : ∀ i, s = .index i → ∃ items, i.opened items ≠ [])
    (hroot : s.rulesOutNull = true → root ≠ .null) (hn : n ≠ 0)
    (h : ∀ trail, arrivals root trail rest = List.replicate n (.ok (w, trail ++ captured))) :
    ∃ root' captured' n', (s.acts = true ∨ root ≠ .null → root' ≠ .null) ∧ n' ≠ 0 ∧
      ∀ trail, arrivals root' trail (s :: rest) =
        List.replicate n' (.ok (w, trail ++ captured')) := by
  have hstay : s.isIndex = false → ¬ s.Prunes root → s.on root = root → ∀ trail,
      arrivals root trail (s :: rest) =
        List.replicate n (.ok (w, trail ++ (s.captured root ++ captured))) := by
    intro hs hprunes hon trail
    rw [arrivals_of_step hprunes hs, hon, h, List.append_assoc]
  cases s with
  | key name =>
    have hne : Value.mapping [(name, root)] ≠ .null := by simp
    refine ⟨.mapping [(name, root)], captured, n, fun _ => hne, hn, fun trail => ?_⟩
    have hon : (Step.key name).on (.mapping [(name, root)]) = root := by
      simp [Step.on, Value.entry]
    rw [arrivals_of_step (Step.not_prunes_of_ne_null hne) rfl, hon, h]
    simp [Step.captured]
  | index i =>
    obtain ⟨items, m, hm, hopened⟩ := Index.exists_opened (hindex i rfl) root
    refine ⟨.sequence items, captured, m * n, fun _ => by simp, Nat.mul_ne_zero hm hn, ?_⟩
    intro trail
    rw [arrivals_of_sequence, hopened, List.flatMap_replicate, h, List.flatten_replicate_replicate]
  | default d =>
    have hne := hroot rfl
    have hon : (Step.default d).on root = root := by
      rw [Step.on, if_neg (by simpa using hne)]
    exact ⟨root, captured, n, fun _ => hne, hn,
      hstay rfl (Step.not_prunes_of_ne_null hne) hon⟩
  | capture =>
    have hne := hroot rfl
    exact ⟨root, root :: captured, n, fun _ => hne, hn,
      hstay rfl (Step.not_prunes_of_ne_null hne) rfl⟩
  | divider =>
    refine ⟨root, captured, n, fun h => h.resolve_left Bool.false_ne_true, hn, hstay rfl ?_ rfl⟩
    simp [Step.Prunes, Op.letsNullThrough]
  | anyEntry =>
    refine ⟨root, captured, n, fun h => h.resolve_left Bool.false_ne_true, hn, hstay rfl ?_ rfl⟩
    simp [Step.Prunes, Op.letsNullThrough]

/-- If every index opens something, the steps can arrive at any value but null, and only there. -/
theorem exists_arrivals {steps : List Step} (h : Opens steps) (hv : v ≠ .null) :
    ∃ root captured n, root ≠ .null ∧ n ≠ 0 ∧
      ∀ trail, arrivals root trail steps = List.replicate n (.ok (v, trail ++ captured)) := by
  induction steps with
  | nil => exact ⟨v, [], 1, hv, Nat.one_ne_zero, fun trail => by rw [List.append_nil]; rfl⟩
  | cons s rest ih =>
    obtain ⟨root, captured, n, hroot, hn, harrivals⟩ :=
      ih fun i hi => h i (List.mem_cons_of_mem s hi)
    obtain ⟨root', captured', n', hroot', hn', harrivals'⟩ :=
      exists_arrivals_cons (fun i hi => h i (hi ▸ List.mem_cons_self)) (fun _ => hroot) hn harrivals
    exact ⟨root', captured', n', hroot' (Or.inr hroot), hn', harrivals'⟩

/-- They can also arrive at null, unless the last step that does anything leaves no null. -/
theorem exists_arrivals_null {steps : List Step} (h : Opens steps) (hends : ¬ EndsNonNull steps) :
    ∃ root captured n, (steps.filter Step.acts ≠ [] → root ≠ .null) ∧ n ≠ 0 ∧
      ∀ trail, arrivals root trail steps = List.replicate n (.ok (.null, trail ++ captured)) := by
  induction steps with
  | nil =>
    exact ⟨.null, [], 1, fun h => absurd rfl h, Nat.one_ne_zero, fun trail => by
      rw [List.append_nil]; rfl⟩
  | cons s rest ih =>
    rw [endsNonNull_cons, not_or, not_and] at hends
    obtain ⟨root, captured, n, hroot, hn, harrivals⟩ :=
      ih (fun i hi => h i (List.mem_cons_of_mem s hi)) hends.1
    obtain ⟨root', captured', n', hroot', hn', harrivals'⟩ :=
      exists_arrivals_cons (fun i hi => h i (hi ▸ List.mem_cons_self))
        (fun hs => hroot fun hnone => hends.2 hnone hs) hn harrivals
    refine ⟨root', captured', n', fun hacts => hroot' ?_, hn', harrivals'⟩
    rw [List.filter_cons] at hacts
    cases hs : s.acts with
    | true => exact Or.inl rfl
    | false =>
      rw [hs] at hacts
      exact Or.inr (hroot hacts)

end DocPath
