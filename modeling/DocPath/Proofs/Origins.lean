import DocPath.Proofs.Equality
import DocPath.Proofs.Obtainable
import DocPath.Proofs.Runs
import DocPath.Proofs.WalkMeaning

/-!
# DocPath.Proofs.Origins

What the items of a walk look like, and where their values are from (`results_shape`). An item is a
single value, or one value for each capture of the path and one for its end, or for each of its
alternatives. Nothing is made up: the values are parts of the document or of a default.

Along the steps of a walk two things are kept, for all branches at once: a value is null or a part
of one of these origins, and a captured one is not null (`comesFrom_of_mem_arrivals`). Inside an
alternative nulls are captured as well, and a slice stays together as a sequence of its own, so
there less is kept (`Value.Excerpt`).
-/

namespace DocPath

variable {sources : List Value} {v w : Value} {trail : List Value}

/-! ### Parts of values -/

namespace Value

theorem PartOf.trans {u : Value} (huv : u.PartOf v) (hvw : v.PartOf w) : u.PartOf w := by
  induction hvw with
  | self => exact huv
  | item hitem _ ih => exact .item hitem ih
  | entry hentry _ ih => exact .entry hentry ih

/-- Whether a value is part of one of the sources. -/
def ComesFrom (v : Value) (sources : List Value) : Prop :=
  ∃ source ∈ sources, v.PartOf source

theorem comesFrom_of_mem (h : v ∈ sources) : v.ComesFrom sources := ⟨v, h, .self⟩

theorem ComesFrom.part (h : w.ComesFrom sources) (hpart : v.PartOf w) : v.ComesFrom sources := by
  obtain ⟨source, hsource, hw⟩ := h
  exact ⟨source, hsource, hpart.trans hw⟩

theorem ComesFrom.item {items : List Value} (h : (sequence items).ComesFrom sources)
    (hv : v ∈ items) : v.ComesFrom sources :=
  h.part (.item hv .self)

/-- What a key finds is a part, unless it finds nothing. -/
theorem ComesFrom.entry (h : v.ComesFrom sources) (name : String) :
    v.entry name = .null ∨ (v.entry name).ComesFrom sources := by
  cases v with
  | mapping entries =>
    cases hlookup : entries.lookup name with
    | none => exact Or.inl (by rw [Value.entry, hlookup, Option.getD_none])
    | some found =>
      have hfound : (mapping entries).entry name = found := by
        rw [Value.entry, hlookup, Option.getD_some]
      rw [hfound]
      exact Or.inr (h.part (.entry (mem_of_lookup hlookup) .self))
  | _ => exact Or.inr h

/-- The branches that an index opens have items of the sequence, or items of an item. -/
theorem ComesFrom.opened {items : List Value} (h : (sequence items).ComesFrom sources) {i : Index}
    (hv : v ∈ i.opened items) : v.ComesFrom sources := by
  rw [Index.opened] at hv
  cases hselect : i.select items.length with
  | all =>
    rw [hselect] at hv
    exact h.item hv
  | slice start stop =>
    rw [hselect] at hv
    exact h.item (List.mem_of_mem_take (List.mem_of_mem_drop hv))
  | element found =>
    rw [hselect] at hv
    cases found with
    | none => cases hv
    | some n =>
      dsimp only at hv
      cases hitem : items[n]? with
      | none =>
        rw [hitem] at hv
        cases hv
      | some item =>
        have hpart := h.item (List.mem_of_getElem? hitem)
        rw [hitem] at hv
        cases item with
        | sequence inner => exact hpart.item hv
        | _ =>
          obtain rfl := List.mem_singleton.1 hv
          exact hpart

end Value

/-! ### Walking -/

/-- A step leads from a part to parts, or to null. -/
theorem comesFrom_of_leadsTo {s : Step} (hdefault : ∀ d, s = .default d → d.value ∈ sources)
    (hv : v = .null ∨ v.ComesFrom sources) (h : s.LeadsTo v w) :
    w = .null ∨ w.ComesFrom sources := by
  cases s with
  | key name =>
    obtain rfl : w = v.entry name := h
    rcases hv with rfl | hv
    · exact Or.inl rfl
    · exact hv.entry name
  | index i =>
    obtain ⟨items, rfl, hw⟩ := h
    exact Or.inr ((hv.resolve_left nofun).opened hw)
  | default d =>
    obtain rfl : w = (Step.default d).on v := h
    rw [Step.on]
    split
    next => exact Or.inr (Value.comesFrom_of_mem (hdefault d rfl))
    next => exact hv
  | _ =>
    obtain rfl : w = v := h
    exact hv

/-- What a step captures that does not end the branch. -/
theorem comesFrom_of_mem_captured {s : Step} (hprunes : ¬ s.Prunes v)
    (hv : v = .null ∨ v.ComesFrom sources) (hw : w ∈ s.captured v) :
    w ≠ .null ∧ w.ComesFrom sources := by
  cases s with
  | capture =>
    obtain rfl := List.mem_singleton.1 hw
    have hne : w ≠ .null := by
      rintro rfl
      exact hprunes rfl
    exact ⟨hne, hv.resolve_left hne⟩
  | _ => cases hw

/-- **What is kept along a walk.** At every arrival the value is null or comes from an origin, and
the captured values come from sources and are not null. -/
theorem comesFrom_of_mem_arrivals {steps : List Step} {a : Value × List Value}
    (hdefault : ∀ d, .default d ∈ steps → d.value ∈ sources)
    (hv : v = .null ∨ v.ComesFrom sources) (htrail : ∀ w ∈ trail, w ≠ .null ∧ w.ComesFrom sources)
    (h : .ok a ∈ arrivals v trail steps) :
    (a.1 = .null ∨ a.1.ComesFrom sources) ∧ ∀ w ∈ a.2, w ≠ .null ∧ w.ComesFrom sources := by
  induction steps generalizing v trail with
  | nil =>
    obtain rfl := Except.ok.inj (List.mem_singleton.1 h)
    exact ⟨hv, htrail⟩
  | cons s rest ih =>
    have hs : ∀ d, s = .default d → d.value ∈ sources :=
      fun d hd => hdefault d (hd ▸ List.mem_cons_self)
    obtain ⟨hprunes, v', hleads, h⟩ := mem_arrivals_cons_iff.1 h
    refine ih (fun d hd => hdefault d (List.mem_cons_of_mem s hd))
      (comesFrom_of_leadsTo hs hv hleads) ?_ h
    exact List.forall_mem_append.2 ⟨htrail, fun w => comesFrom_of_mem_captured hprunes hv⟩

/-! ### Running -/

/-- What values come to inside an alternative: nothing, a part of an origin, or a run of items of a
sequence that is one. -/
inductive Value.Excerpt (sources : List Value) : Value → Prop
  | absent : Excerpt sources .null
  | part {v : Value} : v.ComesFrom sources → Excerpt sources v
  | run {items run : List Value} : (Value.sequence items).ComesFrom sources → run <:+: items →
      Excerpt sources (.sequence run)

namespace Value

theorem excerpt_of_comesFrom (h : v = .null ∨ v.ComesFrom sources) : v.Excerpt sources := by
  rcases h with rfl | h
  · exact .absent
  · exact .part h

theorem Excerpt.exists_items {run : List Value} (h : (sequence run).Excerpt sources) :
    ∃ items, (sequence items).ComesFrom sources ∧ run <:+: items := by
  cases h with
  | part h => exact ⟨run, h, List.infix_rfl⟩
  | run h hrun => exact ⟨_, h, hrun⟩

theorem Excerpt.entry (h : v.Excerpt sources) (name : String) : (v.entry name).Excerpt sources := by
  cases h with
  | absent => exact .absent
  | part h => exact excerpt_of_comesFrom (h.entry name)
  | run h hrun => exact .run h hrun

/-- What an index makes of a run of items: an item, a shorter run, or nothing. -/
theorem Excerpt.indexed (h : v.Excerpt sources) (i : Index) : (i.on v).Excerpt sources := by
  cases v with
  | sequence run =>
    obtain ⟨items, hitems, hrun⟩ := h.exists_items
    rw [Index.on]
    cases i.select run.length with
    | all => exact h
    | slice start stop =>
      refine .run hitems (List.IsInfix.trans ?_ hrun)
      exact (List.drop_suffix start _).isInfix.trans (List.take_prefix stop run).isInfix
    | element found =>
      cases found with
      | none => exact .absent
      | some n =>
        dsimp only
        cases hitem : run[n]? with
        | none => exact .absent
        | some item => exact .part (hitems.item (hrun.subset (List.mem_of_getElem? hitem)))
  | _ => exact h

end Value

/-- Every step makes an excerpt of an excerpt. -/
theorem excerpt_on {s : Step} (hdefault : ∀ d, s = .default d → d.value ∈ sources)
    (hv : v.Excerpt sources) : (s.on v).Excerpt sources := by
  cases s with
  | key name => exact hv.entry name
  | index i => exact hv.indexed i
  | default d =>
    rw [Step.on]
    split
    next => exact .part (Value.comesFrom_of_mem (hdefault d rfl))
    next => exact hv
  | _ => exact hv

theorem excerpt_of_mem_captured {s : Step} (hv : v.Excerpt sources) (hw : w ∈ s.captured v) :
    w.Excerpt sources := by
  cases s with
  | capture =>
    obtain rfl := List.mem_singleton.1 hw
    exact hv
  | _ => cases hw

/-- What is kept along the steps of an alternative. -/
theorem excerpt_runSteps {steps : List Step}
    (hdefault : ∀ d, .default d ∈ steps → d.value ∈ sources)
    (hv : v.Excerpt sources) (htrail : ∀ w ∈ trail, w.Excerpt sources) :
    (runSteps v trail steps).1.Excerpt sources ∧
      ∀ w ∈ (runSteps v trail steps).2, w.Excerpt sources := by
  induction steps generalizing v trail with
  | nil => exact ⟨hv, htrail⟩
  | cons s rest ih =>
    have hs : ∀ d, s = .default d → d.value ∈ sources :=
      fun d hd => hdefault d (hd ▸ List.mem_cons_self)
    refine ih (fun d hd => hdefault d (List.mem_cons_of_mem s hd)) (excerpt_on hs hv) ?_
    exact List.forall_mem_append.2 ⟨htrail, fun w => excerpt_of_mem_captured hv⟩

/-- What is kept through all alternatives. -/
theorem excerpt_runAlternatives (paths : List (List Step))
    (hdefault : ∀ d, .default d ∈ paths.flatten → d.value ∈ sources) (hv : v.Excerpt sources)
    (htrail : ∀ w ∈ trail, w.Excerpt sources) :
    (∀ w ∈ (runAlternatives v trail paths).1, w.Excerpt sources) ∧
      ∀ w ∈ (runAlternatives v trail paths).2, w.Excerpt sources := by
  induction paths generalizing trail with
  | nil => exact ⟨nofun, htrail⟩
  | cons path paths ih =>
    rw [List.flatten_cons] at hdefault
    obtain ⟨hvalue, htrail⟩ :=
      excerpt_runSteps (fun d hd => hdefault d (List.mem_append_left _ hd)) hv htrail
    obtain ⟨hvalues, htrail⟩ := ih (fun d hd => hdefault d (List.mem_append_right _ hd)) htrail
    exact ⟨List.forall_mem_cons.2 ⟨hvalue, hvalues⟩, htrail⟩

/-- There is one value for each alternative. -/
theorem length_runAlternatives_fst (v : Value) (trail : List Value) (paths : List (List Step)) :
    (runAlternatives v trail paths).1.length = paths.length := by
  rw [runAlternatives_fst, List.length_map]

/-- There is one capture more for each capturing step of the alternatives. -/
theorem length_runAlternatives_snd (v : Value) (trail : List Value) (paths : List (List Step)) :
    (runAlternatives v trail paths).2.length =
      trail.length + paths.flatten.countP Step.isCapture := by
  induction paths generalizing trail with
  | nil => rfl
  | cons path paths ih =>
    have hpath := length_runSteps v trail path
    rw [runAlternatives, List.flatten_cons, List.countP_append]
    dsimp only
    rw [ih, hpath]
    omega

/-! ### Items -/

/-- The value that a step brings in. -/
def Step.brought? : Step → Option Value
  | default d => some d.value
  | _ => none

namespace Path

/-- What the values of a walk can come from: the document and the defaults of the path. -/
def origins (p : Path) (root : Value) : List Value := root :: p.steps.filterMap Step.brought?

/-- The number of captures in the path, those of its alternatives included. -/
def captures (p : Path) : Nat := p.steps.countP Step.isCapture

theorem root_comesFrom (p : Path) (root : Value) : root.ComesFrom (p.origins root) :=
  Value.comesFrom_of_mem List.mem_cons_self

theorem default_mem_origins {p : Path} {d : Default} (h : .default d ∈ p.steps) (root : Value) :
    d.value ∈ p.origins root :=
  List.mem_cons_of_mem _ (List.mem_filterMap.2 ⟨_, h, rfl⟩)

theorem steps_eq {p : Path} {steps : List Step} {ops : List Op}
    (h : p.ops = steps.map .step ++ ops) : p.steps = steps ++ ops.flatMap Op.steps := by
  simp [Path.steps, h, List.flatMap_map, Op.steps]

end Path

/-- Behind every item there is an arrival of the first steps of the path. If nothing comes of null
there, the value and the captures with which they arrive come from the origins and are not null. -/
theorem exists_arrival_of_mem_results {p : Path} {steps : List Step} {ops : List Op}
    (hp : p.ops = steps.map .step ++ ops) (hnull : ∀ trail, meaning .null trail ops = [])
    {root item : Value} (h : .ok item ∈ (Walk.start p root).results) :
    ∃ v trail, trail.length = steps.countP Step.isCapture ∧
      (∀ w ∈ trail ++ [v], w ≠ .null ∧ w.ComesFrom (p.origins root)) ∧
      .ok item ∈ meaning v trail ops := by
  rw [Walk.results_start] at h
  have hmeaning := mem_of_mem_upToError h
  rw [hp, meaning_append, List.mem_flatMap] at hmeaning
  obtain ⟨a, ha, hitem⟩ := hmeaning
  cases a with
  | error e => cases List.mem_singleton.1 hitem
  | ok a =>
    obtain ⟨v, trail⟩ := a
    rw [goOn_ok] at hitem
    have hne : v ≠ .null := by
      rintro rfl
      rw [hnull] at hitem
      cases hitem
    have hdefault : ∀ d, .default d ∈ steps → d.value ∈ p.origins root := by
      intro d hd
      refine Path.default_mem_origins ?_ root
      rw [Path.steps_eq hp]
      exact List.mem_append_left _ hd
    obtain ⟨hv, htrail⟩ :=
      comesFrom_of_mem_arrivals hdefault (Or.inr (p.root_comesFrom root)) (List.forall_mem_nil _) ha
    refine ⟨v, trail, ?_, ?_, hitem⟩
    · rw [length_of_mem_arrivals ha]
      exact Nat.zero_add _
    · exact List.forall_mem_append.2
        ⟨htrail, List.forall_mem_singleton.2 ⟨hne, hv.resolve_left hne⟩⟩

/-- The items of a path of steps. -/
theorem shape_of_steps {p : Path} {steps : List Step} (hp : p.ops = steps.map .step)
    {root item : Value} (h : .ok item ∈ (Walk.start p root).results) :
    ∃ v trail, trail.length = p.captures ∧ item = leaf v trail ∧
      ∀ w ∈ trail ++ [v], w ≠ .null ∧ w.ComesFrom (p.origins root) := by
  have hp := hp.trans (List.append_nil _).symm
  obtain ⟨v, trail, htrail, hvalues, hitem⟩ := exists_arrival_of_mem_results hp (fun _ => rfl) h
  have hne : v ≠ .null := (hvalues v (List.mem_append_right _ List.mem_cons_self)).1
  rw [meaning_nil hne] at hitem
  refine ⟨v, trail, ?_, Except.ok.inj (List.mem_singleton.1 hitem), hvalues⟩
  rw [htrail, Path.captures, Path.steps_eq hp]
  exact congrArg _ (List.append_nil steps).symm

/-- The items of a path that ends in an alternation. -/
theorem shape_of_alternation {p : Path} {steps : List Step} {paths : List (List Step)}
    (hp : p.ops = steps.map .step ++ [.alternatives paths]) {root item : Value}
    (h : .ok item ∈ (Walk.start p root).results) :
    ∃ values, item = .sequence values ∧ values.length = p.captures + paths.length ∧
      ∀ v ∈ values, v.Excerpt (p.origins root) := by
  obtain ⟨v, trail, htrail, hpresent, hitem⟩ := exists_arrival_of_mem_results hp (fun _ => rfl) h
  obtain ⟨hpresent, hv⟩ := List.forall_mem_append.1 hpresent
  obtain ⟨hne, hv⟩ := List.forall_mem_singleton.1 hv
  have hsteps : p.steps = steps ++ paths.flatten := by
    rw [Path.steps_eq hp, List.flatMap_singleton]
    rfl
  have hdefault : ∀ d, .default d ∈ paths.flatten → d.value ∈ p.origins root := by
    intro d hd
    refine Path.default_mem_origins ?_ root
    rw [hsteps]
    exact List.mem_append_right _ hd
  rw [meaning_alternatives hne] at hitem
  obtain ⟨hvalues, hcaptured⟩ := excerpt_runAlternatives paths hdefault (.part hv)
    fun w hw => .part (hpresent w hw).2
  refine ⟨_, Except.ok.inj (List.mem_singleton.1 hitem), ?_,
    List.forall_mem_append.2 ⟨hcaptured, hvalues⟩⟩
  rw [List.length_append, length_runAlternatives_fst, length_runAlternatives_snd, htrail,
    Path.captures, hsteps, List.countP_append]

/-- **Items have a fixed shape and invent nothing.** At the end of an alternation, every item has
one value for each capture of the path and one for each alternative; each is null, a part of the
document or of a default, or a run of items of such a part. Otherwise every item is a single value
if the path captures nothing, or else has one value for each capture and one for the end; each is a
part of the document or of a default, and not null. -/
theorem results_shape {p : Path} (h : p.Obtainable) {root item : Value}
    (hitem : .ok item ∈ (Walk.start p root).results) :
    (∀ paths, p.ops.getLast? = some (.alternatives paths) →
      ∃ values, item = .sequence values ∧ values.length = p.captures + paths.length ∧
        ∀ v ∈ values, v.Excerpt (p.origins root)) ∧
    ((∀ paths, p.ops.getLast? ≠ some (.alternatives paths)) →
      (p.captures = 0 → item ≠ .null ∧ item.ComesFrom (p.origins root)) ∧
      (p.captures ≠ 0 → ∃ values, item = .sequence values ∧ values.length = p.captures + 1 ∧
        ∀ v ∈ values, v ≠ .null ∧ v.ComesFrom (p.origins root))) := by
  obtain ⟨steps, hsteps | ⟨paths, hpaths⟩⟩ := misplaced?_eq_none_iff.1 h.misplaced_single.1
  · refine ⟨fun paths hlast => ?_, fun _ => ?_⟩
    · rw [hsteps] at hlast
      obtain ⟨s, -, hs⟩ := mem_map_step_iff.1 (List.mem_of_getLast? hlast)
      cases hs
    · obtain ⟨v, trail, htrail, rfl, hvalues⟩ := shape_of_steps hsteps hitem
      constructor
      · intro hnone
        obtain rfl := List.length_eq_zero_iff.1 (htrail.trans hnone)
        exact hvalues v List.mem_cons_self
      · intro hsome
        have hne : trail.isEmpty = false := by
          rw [List.isEmpty_eq_false_iff, ← List.length_pos_iff]
          omega
        refine ⟨trail ++ [v], by rw [leaf, hne]; rfl, ?_, hvalues⟩
        rw [List.length_append, htrail]
        rfl
  · have hlast : p.ops.getLast? = some (.alternatives paths) := by
      rw [hpaths, List.getLast?_concat]
    refine ⟨fun paths' hpaths' => ?_, fun hnot => absurd hlast (hnot paths)⟩
    obtain rfl : paths = paths' := Op.alternatives.inj (Option.some.inj (hlast.symm.trans hpaths'))
    exact shape_of_alternation hpaths hitem

/-- The captures are made before the alternation and inside it. Of its two keys the entry of the
document has the first one only. -/
theorem results_shape_alternation :
    let d : Default := ⟨.bool false, .bool, "false"⟩
    let paths : List (List Step) := [[.capture, .key "b"], [.key "c", .default d]]
    let p : Path := ⟨[.capture, .index (.one .wildcard), .alternatives paths]⟩
    let entry := Value.mapping [("b", .bool true)]
    let root := Value.sequence [entry]
    let item := Value.sequence [root, entry, .bool true, d.value]
    p.Obtainable ∧ .ok item ∈ (Walk.start p root).results ∧
      ∃ values, item = .sequence values ∧ values.length = p.captures + paths.length ∧
        ∀ v ∈ values, v.Excerpt (p.origins root) := by
  intro d paths p entry root item
  have hpaths : ∀ path ∈ paths, (Path.ofSteps path).Obtainable := by
    have hsteps : ∀ path : List Step, ∀ op ∈ path.map Op.step, op.Obtainable := by
      intro path op hop
      obtain ⟨s, -, rfl⟩ := mem_map_step_iff.1 hop
      exact .step s
    refine List.forall_mem_cons.2 ⟨.checked (hsteps [.capture, .key "b"]) rfl, ?_⟩
    exact List.forall_mem_singleton.2 (.checked (hsteps [.key "c", .default d]) rfl)
  have hbuild : Op.ofPaths? (paths.map Path.ofSteps) = .ok (.alternatives paths) := rfl
  have halternatives : (Op.alternatives paths).Obtainable :=
    .alternation (List.forall_mem_map.2 hpaths) hbuild
  have hops : ∀ op ∈ p.ops, op.Obtainable :=
    List.forall_mem_cons.2 ⟨.step _, List.forall_mem_cons.2
      ⟨.step _, List.forall_mem_singleton.2 halternatives⟩⟩
  have hp : p.Obtainable := .checked hops rfl
  have hitem : .ok item ∈ (Walk.start p root).results := by
    have hresults : (Walk.start p root).results = [.ok item] := by
      rw [Walk.results_start]
      rfl
    rw [hresults]
    exact List.mem_cons_self
  exact ⟨hp, hitem, (results_shape hp hitem).1 paths rfl⟩

end DocPath
