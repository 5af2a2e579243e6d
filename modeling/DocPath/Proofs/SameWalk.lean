import DocPath.Proofs.Rereading
import DocPath.Proofs.Runs
import Mathlib.Data.List.Dedup

/-!
# DocPath.Proofs.SameWalk

Operations that come after the same steps, compared by the walks of all documents. They give the
same if they do so wherever the steps can arrive (`meaning_append_congr`); and if they do not, then
already the first results differ for some document (`SameWalk.exists_head?_eq`).

An alternation after steps is compared with what can be put in its place: nothing for one of no path
(`sameWalk_none_iff`), the path itself for one of one path (`sameWalk_one_iff`), and for one of
several paths, an alternation whose first path has left what it begins with in front of it
(`sameWalk_lead_iff`) or has taken in steps from there (`sameWalk_taken_iff`).
-/

namespace DocPath

/-! ### Operations after the same steps -/

/-- Whether operations give the same results for every document. -/
def SameWalk (ops ops' : List Op) : Prop :=
  ∀ root, upToError (meaning root [] ops) = upToError (meaning root [] ops')

variable {v : Value} {trail : List Value} {steps path : List Step} {ops ops' : List Op}

/-- Operations after the same steps give the same if they do so wherever the steps can arrive. -/
theorem meaning_append_congr (hdefault : ∀ d, .default d ∈ steps → d.value ≠ .null)
    (h : Opens steps → ∀ v trail, trail.length = steps.countP Step.isCapture →
      (EndsNonNull steps → v ≠ .null) → meaning v trail ops = meaning v trail ops') :
    SameWalk (steps.map .step ++ ops) (steps.map .step ++ ops') := by
  intro root
  rw [meaning_append, meaning_append]
  refine congrArg upToError (List.flatMap_congr fun a ha => ?_)
  cases a with
  | error e => rfl
  | ok a =>
    refine h (opens_of_mem_arrivals ha) a.1 a.2 ?_ fun hends => ?_
    · rw [length_of_mem_arrivals ha]
      exact Nat.zero_add _
    · exact ne_null_of_mem_arrivals hdefault (Or.inl hends) ha

theorem head?_upToError (results : List (Except WalkError Value)) :
    (upToError results).head? = results.head? := by
  cases results with
  | nil => rfl
  | cons r rest => cases r <;> rfl

theorem head?_flatten_replicate {n : Nat} (hn : n ≠ 0) (results : List (Except WalkError Value)) :
    (List.replicate n results).flatten.head? = results.head? := by
  rw [List.head?_flatten, List.findSome?_replicate, if_neg hn]

/-- Operations that give the same after the same steps have the same first result wherever the steps
can arrive. -/
theorem SameWalk.exists_head?_eq (h : SameWalk (steps.map .step ++ ops) (steps.map .step ++ ops'))
    (hopens : Opens steps) (hv : v ≠ .null ∨ ¬ EndsNonNull steps) :
    ∃ captured, captured.length = steps.countP Step.isCapture ∧
      (meaning v captured ops).head? = (meaning v captured ops').head? := by
  have harrives : ∃ root captured n, n ≠ 0 ∧
      ∀ trail, arrivals root trail steps = List.replicate n (.ok (v, trail ++ captured)) := by
    by_cases hnull : v = .null
    · subst hnull
      have hends := hv.resolve_left fun h => h rfl
      obtain ⟨root, captured, n, -, h⟩ := exists_arrivals_null hopens hends
      exact ⟨root, captured, n, h⟩
    · obtain ⟨root, captured, n, -, h⟩ := exists_arrivals hopens hnull
      exact ⟨root, captured, n, h⟩
  obtain ⟨root, captured, n, hn, harrivals⟩ := harrives
  have hmem : .ok (v, captured) ∈ arrivals root [] steps := by
    rw [harrivals]
    exact List.mem_replicate.2 ⟨hn, rfl⟩
  refine ⟨captured, ?_, ?_⟩
  · rw [← Nat.zero_add (steps.countP _)]
    exact length_of_mem_arrivals hmem
  · have hroot := congrArg List.head? (h root)
    rw [head?_upToError, head?_upToError, meaning_append, meaning_append, harrivals,
      List.flatMap_replicate, List.flatMap_replicate, head?_flatten_replicate hn,
      head?_flatten_replicate hn] at hroot
    exact hroot

/-! ### Paths that can be walked -/

/-- Operations that give exactly one item at each value but null, and nothing there. -/
structure GivesOne (ops : List Op) : Prop where
  null : ∀ trail, meaning .null trail ops = []
  exists_item : ∀ v trail, v ≠ .null → ∃ item, meaning v trail ops = [.ok item]

theorem givesOne_nil : GivesOne [] :=
  ⟨fun _ => rfl, fun _ _ hv => ⟨_, meaning_nil hv⟩⟩

theorem givesOne_alternatives (paths : List (List Step)) : GivesOne [.alternatives paths] :=
  ⟨fun _ => rfl, fun _ _ hv => ⟨_, meaning_alternatives hv paths⟩⟩

/-- Whether a path after steps arrives where it would run to. -/
structure Walkable (steps path : List Step) : Prop where
  noIndex : ∀ s ∈ path, s.isIndex = false
  /-- The entry that a key finds may be null. -/
  defaulted : keysDefaulted path = true
  /-- A default in front would give something at null. -/
  neverNull : defaultFirst path = true → EndsNonNull steps

/-- After a path that can be walked, operations mean what they mean where it runs to. -/
theorem Walkable.meaning_eq (h : Walkable steps path)
    (hdefault : ∀ d, .default d ∈ path → d.value ≠ .null) (hv : v ≠ .null) (trail : List Value)
    (ops : List Op) : meaning v trail (path.map .step ++ ops) =
      meaning (runSteps v trail path).1 (runSteps v trail path).2 ops ∧
      (runSteps v trail path).1 ≠ .null := by
  obtain ⟨harrivals, hne⟩ := arrivals_eq_run trail h.noIndex h.defaulted hdefault (Or.inl hv)
  refine ⟨?_, hne⟩
  rw [meaning_append, harrivals, List.flatMap_singleton]
  rfl

/-- Nothing comes of null through a path that can be walked, if the steps can arrive there. -/
theorem Walkable.meaning_null_eq (h : Walkable steps path) (hops : GivesOne ops)
    (hsingle : ∀ s ∈ path, s.isSingle = true) (hends : ¬ EndsNonNull steps) :
    meaning .null trail (path.map .step ++ ops) = [] := by
  refine meaning_null hops.null hsingle ?_
  rw [← Bool.not_eq_true]
  exact fun hfirst => hends (h.neverNull hfirst)

/-- The names of the keys among steps, each of them once. -/
def keyNames (steps : List Step) : List String :=
  (steps.filterMap fun
    | .key name => some name
    | _ => none).dedup

theorem mem_keyNames {name : String} (h : .key name ∈ steps) : name ∈ keyNames steps :=
  List.mem_dedup.2 (List.mem_filterMap.2 ⟨_, h, rfl⟩)

theorem exists_key_of_countP (h : steps.countP Step.isKey ≠ 0) : ∃ name, .key name ∈ steps := by
  obtain ⟨s, hs, hkey⟩ := List.countP_pos_iff.1 (Nat.pos_of_ne_zero h)
  cases s with
  | key name => exact ⟨name, hs⟩
  | _ => simp [Step.isKey] at hkey

/-- A key without a default after it is somewhere among steps that are not defaulted. -/
theorem exists_of_not_keysDefaulted (h : keysDefaulted path = false) :
    ∃ before name after, path = before ++ .key name :: after ∧ defaultFirst after = false := by
  induction path with
  | nil => cases h
  | cons s rest ih =>
    rw [keysDefaulted, Bool.and_eq_false_iff] at h
    rcases h with hs | hrest
    · cases s with
      | key name => exact ⟨[], name, rest, rfl, by simpa [Step.isKey] using hs⟩
      | _ => simp [Step.isKey] at hs
    · obtain ⟨before, name, after, rfl, hafter⟩ := ih hrest
      exact ⟨s :: before, name, after, rfl, hafter⟩

/-- From a mapping with nothing in it, an undefaulted key leads to nothing. -/
theorem meaning_key_eq_nil (hops : GivesOne ops) {name : String} {after : List Step}
    (hsingle : ∀ s ∈ after, s.isSingle = true) (hafter : defaultFirst after = false) :
    meaning (.mapping []) trail ((Step.key name :: after).map .step ++ ops) = [] := by
  have hmapping : Value.mapping [] ≠ .null := by simp
  have hentry : (Step.key name).on (.mapping []) = .null := rfl
  rw [List.map_cons, List.cons_append, meaning_of_step (Step.not_prunes_of_ne_null hmapping) rfl,
    hentry]
  exact meaning_null hops.null hsingle hafter

section

variable (hops : GivesOne ops) (hops' : GivesOne ops') (hopens : Opens steps)
  (h : SameWalk (steps.map .step ++ (path.map .step ++ ops)) (steps.map .step ++ ops'))

include hops' hopens h in
/-- A string fails at an index, so a path that gives an item for it has none. -/
theorem SameWalk.noIndex : ∀ s ∈ path, s.isIndex = false := by
  have hne := tower_ne_null (keyNames path) 0
  obtain ⟨captured, -, hhead⟩ := h.exists_head?_eq hopens (Or.inl hne)
  obtain ⟨item, hitem⟩ := hops'.exists_item _ captured hne
  rcases arrivals_tower (fun name => mem_keyNames) 0 with h | ⟨e, he⟩
  · exact h.1
  · rw [meaning_append, he, hitem] at hhead
    cases hhead

include hops hops' hopens h in
/-- A mapping without an entry gives nothing at a key, unless a default follows. -/
theorem SameWalk.keysDefaulted (hindex : ∀ s ∈ path, s.isIndex = false)
    (hsingle : ∀ s ∈ path, s.isSingle = true) : keysDefaulted path = true := by
  by_contra hnot
  rw [Bool.not_eq_true] at hnot
  obtain ⟨before, name, after, rfl, hafter⟩ := exists_of_not_keysDefaulted hnot
  have hsingle := (List.forall_mem_cons.1 (List.forall_mem_append.1 hsingle).2).2
  have hbefore : Opens before := by
    intro i hi
    have hi := hindex _ (List.mem_append_left _ hi)
    simp [Step.isIndex] at hi
  have hmapping : Value.mapping [] ≠ .null := by simp
  obtain ⟨v, captured', n, hv, -, harrivals⟩ := exists_arrivals hbefore hmapping
  obtain ⟨captured, -, hhead⟩ := h.exists_head?_eq hopens (Or.inl hv)
  obtain ⟨item, hitem⟩ := hops'.exists_item v captured hv
  have hkey : goOn ((Step.key name :: after).map .step ++ ops)
      (.ok (.mapping [], captured ++ captured')) = [] := meaning_key_eq_nil hops hsingle hafter
  rw [List.map_append, List.append_assoc, meaning_append, harrivals, List.flatMap_replicate, hkey,
    List.flatten_replicate_nil, hitem] at hhead
  cases hhead

include hops hops' hopens h in
/-- A default in front gives an item at null. -/
theorem SameWalk.neverNull (hindex : ∀ s ∈ path, s.isIndex = false)
    (hkeys : DocPath.keysDefaulted path = true)
    (hdefault : ∀ d, .default d ∈ path → d.value ≠ .null) (hfirst : defaultFirst path = true) :
    EndsNonNull steps := by
  by_contra hends
  obtain ⟨captured, -, hhead⟩ := h.exists_head?_eq hopens (Or.inr hends)
  obtain ⟨harrivals, hne⟩ := arrivals_eq_run captured hindex hkeys hdefault (Or.inr hfirst)
  obtain ⟨item, hitem⟩ := hops.exists_item _ (runSteps .null captured path).2 hne
  have hpath : meaning .null captured (path.map .step ++ ops) = [.ok item] := by
    rw [meaning_append, harrivals, List.flatMap_singleton]
    exact hitem
  rw [hpath, hops'.null] at hhead
  cases hhead

include hops hops' hopens h in
/-- Only a path that can be walked gives one item wherever the steps in front of it arrive. -/
theorem SameWalk.walkable (hsingle : ∀ s ∈ path, s.isSingle = true)
    (hdefault : ∀ d, .default d ∈ path → d.value ≠ .null) : Walkable steps path := by
  have hindex := h.noIndex hops' hopens
  have hkeys := h.keysDefaulted hops hops' hopens hindex hsingle
  exact ⟨hindex, hkeys, h.neverNull hops hops' hopens hindex hkeys hdefault⟩

end

/-! ### An alternation of no path -/

/-- Nothing stands for an alternation of no path exactly if the steps never arrive. -/
theorem sameWalk_none_iff (hsteps : ∀ d, .default d ∈ steps → d.value ≠ .null) :
    SameWalk (steps.map .step ++ []) (steps.map .step ++ [.alternatives []]) ↔ ¬ Opens steps := by
  constructor
  · intro h hopens
    have hne := tower_ne_null [] 0
    obtain ⟨captured, -, hhead⟩ := h.exists_head?_eq hopens (Or.inl hne)
    rw [meaning_nil hne, meaning_alternatives hne, List.head?_cons, List.head?_cons,
      Option.some.injEq, Except.ok.injEq, leaf] at hhead
    split at hhead
    next => cases hhead
    next =>
      -- The captures stand in both items, but the value does so only in the first.
      have hlength := congrArg List.length (Value.sequence.inj hhead)
      simp [runAlternatives] at hlength
  · intro hnever
    exact meaning_append_congr hsteps fun hopens => absurd hopens hnever

/-! ### An alternation of one path -/

theorem exists_isCapture_iff {steps path : List Step} :
    (∃ s ∈ steps ++ path, s.isCapture = true) ↔
      steps.countP Step.isCapture + path.countP Step.isCapture ≠ 0 := by
  rw [← List.countP_append, ← Nat.pos_iff_ne_zero, List.countP_pos_iff]

/-- With nothing captured, a path gives its value itself, which need not be a sequence. -/
theorem SameWalk.exists_isCapture (hopens : Opens steps) (hwalkable : Walkable steps path)
    (hdefault : ∀ d, .default d ∈ path → d.value ≠ .null)
    (h : SameWalk (steps.map .step ++ (path.map .step ++ []))
      (steps.map .step ++ [.alternatives [path]])) :
    ∃ s ∈ steps ++ path, s.isCapture = true := by
  refine exists_isCapture_iff.2 fun hnone => ?_
  have hne := tower_ne_null (keyNames path) 0
  obtain ⟨captured, hlength, hhead⟩ := h.exists_head?_eq hopens (Or.inl hne)
  obtain ⟨hmeaning, hrun⟩ := hwalkable.meaning_eq hdefault hne captured []
  have htrail : (runSteps (tower (keyNames path) 0) captured path).2 = [] := by
    rw [← List.length_eq_zero_iff, length_runSteps, hlength, hnone]
  rw [hmeaning, meaning_nil hrun, htrail, meaning_alternatives hne, List.head?_cons,
    List.head?_cons, Option.some.injEq, Except.ok.injEq,
    runSteps_tower fun name => mem_keyNames, leaf, if_pos List.isEmpty_nil] at hhead
  have hsequence := isSequence_tower (keyNames path) (0 - path.countP Step.isKey)
  rw [hhead] at hsequence
  cases hsequence

/-- The walk of a path after steps is that of the alternation of this one path exactly if the path
can be walked and something is captured, or the steps never arrive. -/
theorem sameWalk_one_iff (hsteps : ∀ d, .default d ∈ steps → d.value ≠ .null)
    (hdefault : ∀ d, .default d ∈ path → d.value ≠ .null)
    (hsingle : ∀ s ∈ path, s.isSingle = true) :
    SameWalk (steps.map .step ++ path.map .step) (steps.map .step ++ [.alternatives [path]]) ↔
      (Opens steps → Walkable steps path ∧ ∃ s ∈ steps ++ path, s.isCapture = true) := by
  rw [← List.append_nil (path.map Op.step)]
  constructor
  · intro h hopens
    have hwalkable := h.walkable givesOne_nil (givesOne_alternatives [path]) hopens hsingle hdefault
    exact ⟨hwalkable, h.exists_isCapture hopens hwalkable hdefault⟩
  · intro h
    refine meaning_append_congr hsteps fun hopens v trail hlength hnull => ?_
    obtain ⟨hwalkable, hcapture⟩ := h hopens
    by_cases hv : v = .null
    · subst hv
      have hends : ¬ EndsNonNull steps := fun hends => hnull hends rfl
      rw [hwalkable.meaning_null_eq givesOne_nil hsingle hends]
      rfl
    · obtain ⟨hmeaning, hrun⟩ := hwalkable.meaning_eq hdefault hv trail []
      have htrail : ¬ (runSteps v trail path).2.isEmpty = true := by
        rw [List.isEmpty_iff_length_eq_zero, length_runSteps, hlength]
        exact exists_isCapture_iff.1 hcapture
      rw [hmeaning, meaning_alternatives hv, meaning_nil hrun, leaf, if_neg htrail]
      rfl

/-! ### An alternation of several paths -/

/-- Steps that may stand before an alternation and have no index leave a value that is not null. -/
theorem runSteps_of_mayLead {lead : List Step} (hmay : ∀ s ∈ lead, s.mayLead = true)
    (hindex : ∀ s ∈ lead, s.isIndex = false) (hv : v ≠ .null) (trail : List Value) :
    (runSteps v trail lead).1 = v := by
  induction lead generalizing trail with
  | nil => rfl
  | cons s lead ih =>
    obtain ⟨hs, hmay⟩ := List.forall_mem_cons.1 hmay
    obtain ⟨hs', hindex⟩ := List.forall_mem_cons.1 hindex
    have hon : s.on v = v := by
      cases s with
      | key => simp [Step.mayLead] at hs
      | index => simp [Step.isIndex] at hs'
      | default d => exact if_neg (by rwa [Value.isNull_eq_true_iff])
      | _ => rfl
    rw [runSteps, hon]
    exact ih hmay hindex _

/-- Steps that the first path begins with can be put before the alternation exactly if they can be
walked, or the steps in front never arrive. -/
theorem sameWalk_lead_iff {lead body : List Step} {rest : List (List Step)}
    (hsteps : ∀ d, .default d ∈ steps → d.value ≠ .null)
    (hdefault : ∀ d, .default d ∈ lead → d.value ≠ .null)
    (hsingle : ∀ s ∈ lead, s.isSingle = true) (hmay : ∀ s ∈ lead, s.mayLead = true) :
    SameWalk (steps.map .step ++ (lead.map .step ++ [.alternatives (body :: rest)]))
        (steps.map .step ++ [.alternatives ((lead ++ body) :: rest)]) ↔
      (Opens steps → Walkable steps lead) := by
  constructor
  · intro h hopens
    exact h.walkable (givesOne_alternatives _) (givesOne_alternatives _) hopens hsingle hdefault
  · intro h
    refine meaning_append_congr hsteps fun hopens v trail _ hnull => ?_
    have hwalkable := h hopens
    by_cases hv : v = .null
    · subst hv
      have hends : ¬ EndsNonNull steps := fun hends => hnull hends rfl
      rw [hwalkable.meaning_null_eq (givesOne_alternatives _) hsingle hends]
      rfl
    · obtain ⟨hmeaning, -⟩ := hwalkable.meaning_eq hdefault hv trail [.alternatives (body :: rest)]
      have hrun := runSteps_of_mayLead hmay hwalkable.noIndex hv trail
      have hsplit : runAlternatives v trail ((lead ++ body) :: rest) =
          runAlternatives v (runSteps v trail lead).2 (body :: rest) := by
        rw [runAlternatives, runAlternatives, runSteps_append, hrun]
      rw [hmeaning, hrun, meaning_alternatives hv, meaning_alternatives hv, hsplit]

/-- The last value of the item that an alternation gives is that of its last path. -/
theorem getLast?_runAlternatives {rest : List (List Step)} (hrest : rest ≠ []) :
    ((runAlternatives v trail (path :: rest)).2 ++
      (runAlternatives v trail (path :: rest)).1).getLast? =
        some (runSteps v [] (rest.getLast hrest)).1 := by
  rw [runAlternatives_fst, List.getLast?_append, List.getLast?_map, List.getLast?_cons,
    List.getLast?_eq_some_getLast hrest]
  rfl

/-- Steps with a key in front that the first path takes in make a difference, unless the steps
before never arrive. -/
theorem sameWalk_taken_iff (path : List Step) {stay taken : List Step} {rest : List (List Step)}
    (hstay : ∀ d, .default d ∈ stay → d.value ≠ .null)
    (hkey : taken.countP Step.isKey ≠ 0) (hrest : rest ≠ []) :
    SameWalk (stay.map .step ++ [.alternatives ((taken ++ path) :: rest)])
        (stay.map .step ++ (taken.map .step ++ [.alternatives (path :: rest)])) ↔
      ¬ Opens stay := by
  constructor
  · intro h hopens
    -- From a tower high enough, the last path ends lower if the steps come before all paths.
    let last := rest.getLast hrest
    let names := keyNames (taken ++ last)
    let n := taken.countP Step.isKey + last.countP Step.isKey
    have htaken : ∀ name, .key name ∈ taken → name ∈ names :=
      fun name hname => mem_keyNames (List.mem_append_left _ hname)
    have hlast : ∀ name, .key name ∈ last → name ∈ names :=
      fun name hname => mem_keyNames (List.mem_append_right _ hname)
    have hne := tower_ne_null names n
    obtain ⟨captured, -, hhead⟩ := h.exists_head?_eq hopens (Or.inl hne)
    rw [meaning_alternatives hne, meaning_append] at hhead
    rcases arrivals_tower htaken n with ⟨-, harrivals⟩ | ⟨e, he⟩
    · have hlow : (runSteps (tower names n) captured taken).1 =
          tower names (n - taken.countP Step.isKey) := runSteps_tower htaken n
      rw [harrivals, List.flatMap_singleton, goOn_ok, hlow,
        meaning_alternatives (tower_ne_null names _), List.head?_cons, List.head?_cons,
        Option.some.injEq, Except.ok.injEq, Value.sequence.injEq] at hhead
      have hvalue := congrArg List.getLast? hhead
      rw [getLast?_runAlternatives hrest, getLast?_runAlternatives hrest, Option.some.injEq,
        runSteps_tower hlast, runSteps_tower hlast] at hvalue
      obtain ⟨name, hname⟩ := exists_key_of_countP hkey
      have hnames : names ≠ [] := List.ne_nil_of_mem (htaken name hname)
      have hheight := tower_injective hnames hvalue
      omega
    · rw [he] at hhead
      cases hhead
  · intro hnever
    exact meaning_append_congr hstay fun hopens => absurd hopens hnever

end DocPath
