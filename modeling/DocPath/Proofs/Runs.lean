import DocPath.Proofs.Arrivals
import DocPath.Proofs.Grammar

/-!
# DocPath.Proofs.Runs

Steps that are run inside an alternative, against the same steps walked through. A walk ends where a
value is null and fans out where there is an index; a run does neither. Steps without an index, of
which each key has a default after it, arrive exactly where they run to (`arrivals_eq_run`).

Towers of mappings tell runs from walks: from a high tower, steps lead down by one storey for each
key (`runSteps_tower`), and a walk through them fails if there is an index (`arrivals_tower`).
-/

namespace DocPath

variable {v : Value} {trail : List Value} {steps : List Step}

/-! ### What alternatives give -/

/-- The value of a run does not depend on the captures before it. -/
theorem runSteps_fst (v : Value) (trail : List Value) (steps : List Step) :
    (runSteps v trail steps).1 = (runSteps v [] steps).1 := by
  induction steps generalizing v trail with
  | nil => rfl
  | cons s rest ih =>
    rw [runSteps, runSteps, ih, ← ih (s.on v) ([] ++ s.captured v)]

theorem runSteps_append (v : Value) (trail : List Value) (steps rest : List Step) :
    runSteps v trail (steps ++ rest) =
      runSteps (runSteps v trail steps).1 (runSteps v trail steps).2 rest := by
  induction steps generalizing v trail with
  | nil => rfl
  | cons s steps ih => exact ih _ _

/-- A run makes one capture for each capturing step. -/
theorem length_runSteps (v : Value) (trail : List Value) (steps : List Step) :
    (runSteps v trail steps).2.length = trail.length + steps.countP Step.isCapture := by
  induction steps generalizing v trail with
  | nil => rfl
  | cons s steps ih =>
    rw [runSteps, ih, List.length_append, s.length_captured, List.countP_cons]
    omega

/-- Each alternative gives the value that its steps run to. -/
theorem runAlternatives_fst (v : Value) (trail : List Value) (paths : List (List Step)) :
    (runAlternatives v trail paths).1 = paths.map fun path => (runSteps v [] path).1 := by
  induction paths generalizing trail with
  | nil => rfl
  | cons path paths ih =>
    rw [runAlternatives, List.map_cons, ← runSteps_fst v trail path]
    exact congrArg _ (ih _)

/-- What an alternation gives at a value that is not null. -/
theorem meaning_alternatives (hv : v ≠ .null) (paths : List (List Step)) :
    meaning v trail [.alternatives paths] = [.ok (.sequence
      ((runAlternatives v trail paths).2 ++ (runAlternatives v trail paths).1))] := by
  rw [meaning_alternation, if_neg]
  rwa [Value.isNull_eq_true_iff]

/-! ### Defaults after keys -/

/-- Whether a default comes first, past boundaries of segments. -/
def defaultFirst : List Step → Bool
  | .divider :: rest => defaultFirst rest
  | .default _ :: _ => true
  | _ => false

/-- Whether each key has a default after it, past boundaries of segments. -/
def keysDefaulted : List Step → Bool
  | [] => true
  | s :: rest => (!s.isKey || defaultFirst rest) && keysDefaulted rest

/-- Without an index, and with a default for each key, steps arrive where they run to. -/
theorem arrivals_eq_run (trail : List Value) (hindex : ∀ s ∈ steps, s.isIndex = false)
    (hkeys : keysDefaulted steps = true) (hdefault : ∀ d, .default d ∈ steps → d.value ≠ .null)
    (hv : v ≠ .null ∨ defaultFirst steps = true) :
    arrivals v trail steps = [.ok (runSteps v trail steps)] ∧
      (runSteps v trail steps).1 ≠ .null := by
  induction steps generalizing v trail with
  | nil => exact ⟨rfl, hv.resolve_right Bool.false_ne_true⟩
  | cons s rest ih =>
    obtain ⟨hs, hindex⟩ := List.forall_mem_cons.1 hindex
    rw [keysDefaulted, Bool.and_eq_true, Bool.or_eq_true, Bool.not_eq_true'] at hkeys
    have hrest : ∀ d, .default d ∈ rest → d.value ≠ .null :=
      fun d hd => hdefault d (List.mem_cons_of_mem s hd)
    have hprunes : ¬ s.Prunes v := by
      rcases hv with hv | hv
      · exact Step.not_prunes_of_ne_null hv
      · cases s <;>
          first | simp [defaultFirst] at hv; done | simp [Step.Prunes, Op.letsNullThrough]
    rw [arrivals_of_step hprunes hs, runSteps]
    refine ih _ hindex hkeys.2 hrest ?_
    cases s with
    | key name => exact Or.inr (hkeys.1.resolve_left Bool.false_ne_true.symm)
    | index i => simp [Step.isIndex] at hs
    | default d =>
      refine Or.inl (Step.on_ne_null rfl hprunes fun d' hd' => ?_)
      obtain rfl := Step.default.inj hd'
      exact hdefault d List.mem_cons_self
    | divider => exact hv
    | capture => exact Or.inl (hv.resolve_right Bool.false_ne_true)
    | anyEntry => exact Or.inl (hv.resolve_right Bool.false_ne_true)

/-- If nothing comes of null, then neither through single steps before, unless a default comes
first. -/
theorem meaning_null {ops : List Op} (hops : ∀ trail, meaning .null trail ops = [])
    (hsingle : ∀ s ∈ steps, s.isSingle = true) (hfirst : defaultFirst steps = false) :
    meaning .null trail (steps.map .step ++ ops) = [] := by
  induction steps generalizing trail with
  | nil => exact hops trail
  | cons s rest ih =>
    obtain ⟨hs, hrest⟩ := List.forall_mem_cons.1 hsingle
    cases s with
    | divider =>
      have hnull : (Step.divider).on .null = .null := rfl
      rw [List.map_cons, List.cons_append,
        meaning_of_step (by simp [Step.Prunes, Op.letsNullThrough]) rfl, hnull]
      exact ih hrest hfirst
    | default => simp [defaultFirst] at hfirst
    | anyEntry => simp [Step.isSingle] at hs
    | _ => exact meaning_of_prunes rfl

/-! ### Towers -/

/-- Mappings of the names, one in the other, with a string at the bottom. -/
def tower (names : List String) : Nat → Value
  | 0 => .string ""
  | n + 1 => .mapping (names.map fun name => (name, tower names n))

variable {names : List String}

theorem tower_ne_null (names : List String) (n : Nat) : tower names n ≠ .null := by
  cases n <;> nofun

theorem isSequence_tower (names : List String) (n : Nat) : (tower names n).isSequence = false := by
  cases n <;> rfl

/-- Towers of different heights differ. -/
theorem tower_injective (hne : names ≠ []) {m n : Nat} (h : tower names m = tower names n) :
    m = n := by
  obtain ⟨name, rest, rfl⟩ := List.exists_cons_of_ne_nil hne
  induction m generalizing n with
  | zero =>
    cases n with
    | zero => rfl
    | succ n => cases h
  | succ m ih =>
    cases n with
    | zero => cases h
    | succ n =>
      have hentries := Value.mapping.inj h
      rw [List.map_cons, List.map_cons] at hentries
      exact congrArg _ (ih (Prod.mk.inj (List.cons.inj hentries).1).2)

theorem lookup_storey {name : String} (h : name ∈ names) (v : Value) :
    (names.map fun name => (name, v)).lookup name = some v := by
  induction names with
  | nil => cases h
  | cons first rest ih =>
    rw [List.map_cons, List.lookup_cons]
    cases hfirst : name == first with
    | true => rfl
    | false =>
      have hne : name ≠ first := by simpa using hfirst
      exact ih ((List.mem_cons.1 h).resolve_left hne)

/-- A key leads down by one storey, every other step stays. -/
theorem Step.on_tower {s : Step} (hname : ∀ name, s = .key name → name ∈ names) (n : Nat) :
    s.on (tower names n) = tower names (n - if s.isKey then 1 else 0) := by
  cases s with
  | key name =>
    cases n with
    | zero => rfl
    | succ n =>
      show ((names.map fun name => (name, tower names n)).lookup name).getD .null = tower names n
      rw [lookup_storey (hname name rfl)]
      rfl
  | _ => cases n <;> rfl

/-- A run leads down by one storey for each key. -/
theorem runSteps_tower (hnames : ∀ name, .key name ∈ steps → name ∈ names) (n : Nat) :
    (runSteps (tower names n) trail steps).1 = tower names (n - steps.countP Step.isKey) := by
  induction steps generalizing n trail with
  | nil => rfl
  | cons s rest ih =>
    have hs : ∀ name, s = .key name → name ∈ names :=
      fun name hname => hnames name (hname ▸ List.mem_cons_self)
    rw [runSteps, Step.on_tower hs, ih fun name hname => hnames name (List.mem_cons_of_mem s hname),
      List.countP_cons]
    congr 1
    omega

/-- A walk arrives where the run leads to, or fails at an index. -/
theorem arrivals_tower (hnames : ∀ name, .key name ∈ steps → name ∈ names) (n : Nat) :
    (∀ s ∈ steps, s.isIndex = false) ∧
        arrivals (tower names n) trail steps = [.ok (runSteps (tower names n) trail steps)] ∨
      ∃ e, arrivals (tower names n) trail steps = [.error e] := by
  induction steps generalizing n trail with
  | nil => exact Or.inl ⟨List.forall_mem_nil _, rfl⟩
  | cons s rest ih =>
    have hs : ∀ name, s = .key name → name ∈ names :=
      fun name hname => hnames name (hname ▸ List.mem_cons_self)
    have hprunes := Step.not_prunes_of_ne_null (s := s) (tower_ne_null names n)
    cases hindex : s.isIndex with
    | true =>
      cases s with
      | index i => exact Or.inr ⟨_, arrivals_of_failure i hprunes (isSequence_tower names n)⟩
      | _ => simp [Step.isIndex] at hindex
    | false =>
      rw [arrivals_of_step hprunes hindex, runSteps, Step.on_tower hs, List.forall_mem_cons]
      refine (ih (fun name hname => hnames name (List.mem_cons_of_mem s hname)) _).imp_left ?_
      exact fun h => ⟨⟨hindex, h.1⟩, h.2⟩

end DocPath
