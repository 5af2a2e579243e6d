import DocPath.Proofs.Canonical
import DocPath.Proofs.Reading
import Mathlib.Data.List.Chain

/-!
# DocPath.Proofs.Rendering

Steps that the texts written for them spell, put one after the other. `Legible` says what the
grammar asks of them: each has a spelling, and no two keys are adjacent. Their texts can be put in
front of any text (`Spells.append_front`), as long as no key gets into the segment of an
alternation.

What any text spells in some delimiters is spelled by its rendering in all others in which its steps
have a spelling (`Spells.render_of_spelled`). These include its own (`Spells.render`), so a compiled
path renders to a text that compiles to the same operations (`compile_render`).
-/

namespace DocPath

open DocPath.Text

variable {d : Delimiters}

/-! ### Legible steps -/

/-- Some text spells the step. -/
def Spelled (d : Delimiters) (s : Step) : Prop :=
  ∃ token, SpellsStep d token s

/-- Steps with a spelling each, of which no two keys are adjacent. -/
structure Legible (d : Delimiters) (steps : List Step) : Prop where
  spelled : ∀ s ∈ steps, Spelled d s
  apart : steps.IsChain fun s t => s.isKey = true → t.isKey = false

theorem legible_nil : Legible d [] := ⟨nofun, .nil⟩

theorem legible_cons {s : Step} {steps : List Step} : Legible d (s :: steps) ↔
    Spelled d s ∧ (s.isKey = true → ∀ t ∈ steps.head?, t.isKey = false) ∧ Legible d steps := by
  constructor
  · intro h
    obtain ⟨hspelled, hapart⟩ := h
    obtain ⟨hs, hsteps⟩ := List.forall_mem_cons.1 hspelled
    obtain ⟨hnext, hapart⟩ := List.isChain_cons.1 hapart
    exact ⟨hs, fun hkey t ht => hnext t ht hkey, hsteps, hapart⟩
  · intro h
    obtain ⟨hs, hnext, hsteps, hapart⟩ := h
    exact ⟨List.forall_mem_cons.2 ⟨hs, hsteps⟩,
      List.isChain_cons.2 ⟨fun t ht hkey => hnext hkey t ht, hapart⟩⟩

/-- A key can end in front of a text exactly if no key is in front of it there. -/
theorem SpellsSteps.endsKey_iff (hd : d.Legal) {text : List Char} {steps : List Step}
    (h : SpellsSteps d text steps) : EndsKey d text ↔ ∀ t ∈ steps.head?, t.isKey = false := by
  cases h with
  | nil hb =>
    rw [EndsKey, trimStart_of_blank hb]
    simp
  | @cons blanks token after s steps hb hs _ _ =>
    obtain ⟨c, rest, htoken, hc, -, hkey⟩ := hs.exists_cons hd
    rw [EndsKey, trimStart_token hb htoken hc, List.head?_cons]
    constructor
    · intro h t ht
      rw [Option.mem_some_iff] at ht
      exact ht ▸ hkey.1 (h c _ rfl)
    · intro h c' rest' heq
      obtain ⟨rfl, -⟩ := List.cons.inj heq
      exact hkey.2 (h s rfl)

theorem SpellsSteps.legible (hd : d.Legal) {text : List Char} {steps : List Step}
    (h : SpellsSteps d text steps) : Legible d steps := by
  induction h with
  | nil => exact legible_nil
  | cons _ hs hkey hafter ih =>
    exact legible_cons.2 ⟨⟨_, hs⟩, fun h => (hafter.endsKey_iff hd).1 (hkey h), ih⟩

/-- Legible steps are spelled by their texts one after the other. -/
theorem Legible.spells (hd : d.Legal) {steps : List Step} (h : Legible d steps) :
    SpellsSteps d (steps.flatMap (·.render d d.continuation)) steps := by
  induction steps with
  | nil => exact .nil blank_nil
  | cons s steps ih =>
    obtain ⟨⟨token, hs⟩, hnext, hsteps⟩ := legible_cons.1 h
    have hspells := ih hsteps
    rw [List.flatMap_cons]
    exact .cons blank_nil (hs.render hd) (fun hkey => (hspells.endsKey_iff hd).2 (hnext hkey))
      hspells

/-- Between legible steps nothing has to be written. -/
theorem Legible.renderSteps_eq {steps : List Step} (h : Legible d steps) :
    renderSteps d steps = steps.flatMap (·.render d d.continuation) := by
  induction steps with
  | nil => rfl
  | cons s steps ih =>
    obtain ⟨-, hnext, hsteps⟩ := legible_cons.1 h
    cases steps with
    | nil => simp [renderSteps]
    | cons t steps =>
      have hnone : (s.isKey && t.isKey) = false := by
        rw [Bool.and_eq_false_imp]
        exact fun hs => hnext hs t rfl
      rw [renderSteps, hnone, ih hsteps, List.flatMap_cons]
      simp

/-! ### Steps in front of a text -/

/-- Whether an alternation stands in the segment at the head of the operations. -/
def alternationAhead : List Op → Bool
  | [] => false
  | .alternatives _ :: _ => true
  | .step .divider :: _ => false
  | .step _ :: ops => alternationAhead ops

theorem Op.isKey_step (s : Step) : (Op.step s).isKey = s.isKey := by
  cases s <;> rfl

theorem SpellsLead.alternationAhead {body text : List Char} {steps : List Step}
    {paths : List (List Step)} (h : SpellsLead d body text steps) :
    alternationAhead (steps.map .step ++ [.alternatives paths]) = true := by
  induction h with
  | nil => rfl
  | @cons _ _ _ s _ _ _ hlead _ ih =>
    rw [List.map_cons, List.cons_append]
    cases s with
    | key => simp [Step.mayLead] at hlead
    | divider => simp [Step.mayLead] at hlead
    | _ => exact ih

/-- A step that may lead can be put in front of any text. -/
theorem Spells.cons_lead {token text : List Char} {s : Step} {ops : List Op}
    (hs : SpellsStep d token s) (hlead : s.mayLead = true) (h : Spells d text ops) :
    Spells d (token ++ text) (.step s :: ops) := by
  have hkey : ∀ after, s.isKey = true → EndsKey d after := by
    intro after hkey
    rw [Step.isKey_of_mayLead hlead] at hkey
    simp at hkey
  cases h with
  | steps hsteps => exact .steps (.cons blank_nil hs (hkey _) hsteps)
  | alternation hbefore hbody hne hstart =>
    exact .alternation (.cons blank_nil hs hlead hbefore) hbody hne hstart
  | segment hfirst hrest =>
    rw [← List.append_assoc]
    exact .segment (.cons blank_nil hs (hkey _) hfirst) hrest

/-- A divider can be put in front of any text. -/
theorem Spells.cons_divider {text : List Char} {ops : List Op} (h : Spells d text ops) :
    Spells d (d.segmentDivider :: text) (.divider :: ops) := by
  have hfirst : SpellsSteps d [] [] := .nil blank_nil
  exact .segment hfirst h

/-- A key can be put in front of a segment that has no alternation, and no key in front. -/
theorem Spells.cons_key (hd : d.Legal) {token text : List Char} {s : Step} {ops : List Op}
    (hs : SpellsStep d token s) (hkey : ∀ op ∈ ops.head?, op.isKey = false)
    (hahead : alternationAhead ops = false) (h : Spells d text ops) :
    Spells d (token ++ text) (.step s :: ops) := by
  have hends : ∀ {after : List Char} {steps : List Step} {rest : List Op},
      SpellsSteps d after steps → (∀ op ∈ (steps.map Op.step ++ rest).head?, op.isKey = false) →
      EndsKey d after := by
    intro after steps rest hsteps hhead
    refine (hsteps.endsKey_iff hd).2 fun t ht => ?_
    cases steps with
    | nil => cases ht
    | cons t' steps =>
      obtain rfl := Option.mem_some_iff.1 ht
      have ht := hhead (.step t') rfl
      rwa [Op.isKey_step] at ht
  cases h with
  | @steps text steps hsteps =>
    rw [← List.append_nil (steps.map Op.step)] at hkey
    exact .steps (.cons blank_nil hs (fun _ => hends hsteps hkey) hsteps)
  | alternation hlead =>
    rw [hlead.alternationAhead] at hahead
    simp at hahead
  | segment hfirst hrest =>
    rw [← List.append_assoc]
    exact .segment (.cons blank_nil hs (fun _ => hends hfirst hkey) hfirst) hrest

/-- Whether the step is a boundary between segments. -/
def Step.isDivider : Step → Bool
  | divider => true
  | _ => false

/-- Steps of which every key has a divider after it. -/
def Settled : List Step → Prop
  | [] => True
  | s :: steps => (s.isKey = true → steps.any Step.isDivider = true) ∧ Settled steps

theorem alternationAhead_append {steps : List Step} {ops : List Op}
    (h : steps.any Step.isDivider = true ∨ alternationAhead ops = false) :
    alternationAhead (steps.map .step ++ ops) = false := by
  induction steps with
  | nil => exact h.resolve_left nofun
  | cons s steps ih =>
    rw [List.map_cons, List.cons_append]
    cases s with
    | divider => rfl
    | _ => exact ih (by simpa [Step.isDivider] using h)

/-- The texts of legible steps can be put in front of a text whose first segment has no alternation,
and no key at its head if they end with one; in front of any text, if every key has a divider after
it. -/
theorem Spells.append_front (hd : d.Legal) {steps : List Step} {text : List Char} {ops : List Op}
    (hsteps : Legible d steps)
    (hops : (alternationAhead ops = false ∧
      ∀ s ∈ steps.getLast?, s.isKey = true → ∀ op ∈ ops.head?, op.isKey = false) ∨ Settled steps)
    (h : Spells d text ops) :
    Spells d (steps.flatMap (·.render d d.segmentDivider) ++ text) (steps.map .step ++ ops) := by
  induction steps with
  | nil => exact h
  | cons s steps ih =>
    obtain ⟨⟨token, hs⟩, hnext, hsteps⟩ := legible_cons.1 hsteps
    have hrest := ih hsteps <| by
      refine hops.imp (fun ⟨hahead, hlast⟩ => ⟨hahead, fun t ht => hlast t ?_⟩) And.right
      cases steps with
      | nil => cases ht
      | cons t' steps => rwa [List.getLast?_cons_cons]
    have htoken := hs.render hd
    rw [List.flatMap_cons, List.append_assoc, List.map_cons, List.cons_append]
    cases s with
    | key name =>
      refine .cons_key hd htoken ?_ ?_ hrest
      · cases steps with
        | nil =>
          obtain ⟨-, hlast⟩ := hops.resolve_right fun h => by simp [Settled, Step.isKey] at h
          exact hlast _ rfl rfl
        | cons t steps =>
          intro op hop
          obtain rfl := Option.mem_some_iff.1 hop
          rw [Op.isKey_step]
          exact hnext rfl t rfl
      · exact alternationAhead_append (hops.elim (fun h => Or.inr h.1) fun h => Or.inl (h.1 rfl))
    | divider => exact .cons_divider hrest
    | _ => exact .cons_lead htoken rfl hrest

/-! ### The text of operations -/

theorem renderOps_cons_eq (op : Op) (ops : List Op) : renderOps d (op :: ops) =
    op.render d ++ ((if op.isKey && ops.head?.any (fun next => next.isKey || next.isAlternatives)
      then [d.segmentDivider] else []) ++ renderOps d ops) := by
  cases ops with
  | nil => simp [renderOps]
  | cons next ops => exact List.append_assoc _ _ _

theorem renderOps_cons {op : Op} {ops : List Op}
    (h : op.isKey = true → ∀ next ∈ ops.head?, next.isKey = false ∧ next.isAlternatives = false) :
    renderOps d (op :: ops) = op.render d ++ renderOps d ops := by
  rw [renderOps_cons_eq, if_neg, List.nil_append]
  rw [Bool.and_eq_true, Option.any_eq_true]
  intro h
  obtain ⟨hop, next, hnext, hruns⟩ := h
  obtain ⟨hkey, halternatives⟩ := h hop next hnext
  simp [hkey, halternatives] at hruns

/-- Between legible steps, and between them and what is no key and no alternation, nothing has to be
written. -/
theorem Legible.renderOps_append {steps : List Step} {ops : List Op} (h : Legible d steps)
    (hops : (∀ op ∈ ops.head?, op.isKey = false ∧ op.isAlternatives = false) ∨
      ∀ s ∈ steps, s.isKey = false) :
    renderOps d (steps.map .step ++ ops) =
      steps.flatMap (·.render d d.segmentDivider) ++ renderOps d ops := by
  induction steps with
  | nil => rfl
  | cons s steps ih =>
    obtain ⟨-, hnext, hsteps⟩ := legible_cons.1 h
    rw [List.map_cons, List.cons_append, renderOps_cons, ih hsteps, List.flatMap_cons,
      List.append_assoc, Op.render]
    · exact hops.imp_right fun h t ht => h t (List.mem_cons_of_mem s ht)
    · intro hs next hmem
      rw [Op.isKey_step] at hs
      cases steps with
      | nil =>
        refine hops.resolve_right (fun h => ?_) next hmem
        rw [h s List.mem_cons_self] at hs
        simp at hs
      | cons t steps =>
        obtain rfl := Option.mem_some_iff.1 hmem
        rw [Op.isKey_step]
        exact ⟨hnext hs t rfl, rfl⟩

theorem SpellsLead.legible {body text : List Char} {steps : List Step}
    (h : SpellsLead d body text steps) : Legible d steps ∧ ∀ s ∈ steps, s.mayLead = true := by
  induction h with
  | nil => exact ⟨legible_nil, nofun⟩
  | @cons _ _ _ s _ _ hs hlead _ ih =>
    refine ⟨legible_cons.2 ⟨⟨_, hs⟩, fun hkey => ?_, ih.1⟩, List.forall_mem_cons.2 ⟨hlead, ih.2⟩⟩
    rw [Step.isKey_of_mayLead hlead] at hkey
    simp at hkey

/-- Steps that may lead are settled, for there is no key among them. -/
theorem settled_of_mayLead {steps : List Step} (h : ∀ s ∈ steps, s.mayLead = true) :
    Settled steps ∧ ∀ s ∈ steps, s.isKey = false := by
  induction steps with
  | nil => exact ⟨trivial, nofun⟩
  | cons s steps ih =>
    obtain ⟨hs, hsteps⟩ := List.forall_mem_cons.1 h
    have hkey := Step.isKey_of_mayLead hs
    refine ⟨⟨fun h => ?_, (ih hsteps).1⟩, List.forall_mem_cons.2 ⟨hkey, (ih hsteps).2⟩⟩
    rw [hkey] at h
    simp at h

/-- Everything that a text spells is spelled. -/
theorem Spells.spelled (hd : d.Legal) {text : List Char} {ops : List Op} (h : Spells d text ops) :
    ∀ op ∈ ops, ∀ s ∈ op.steps, Spelled d s := by
  have hsteps : ∀ {steps : List Step}, Legible d steps →
      ∀ op ∈ steps.map Op.step, ∀ s ∈ op.steps, Spelled d s := by
    intro steps hlegible op hop s hs
    obtain ⟨t, ht, rfl⟩ := List.mem_map.1 hop
    obtain rfl := List.mem_singleton.1 hs
    exact hlegible.spelled s ht
  have hpaths : ∀ {text : List Char} {paths : List (List Step)}, SpellsAlternatives d text paths →
      ∀ path ∈ paths, ∀ s ∈ path, Spelled d s := by
    intro text paths h
    induction h with
    | last h => exact List.forall_mem_singleton.2 (h.legible hd).spelled
    | cons h _ ih => exact List.forall_mem_cons.2 ⟨(h.legible hd).spelled, ih⟩
  induction h with
  | steps h => exact hsteps (h.legible hd)
  | alternation hlead hbody =>
    refine List.forall_mem_append.2 ⟨hsteps hlead.legible.1, List.forall_mem_singleton.2 ?_⟩
    intro s hs
    obtain ⟨path, hpath, hs⟩ := List.mem_flatten.1 hs
    exact hpaths hbody path hpath s hs
  | segment hfirst _ ih =>
    refine List.forall_mem_append.2 ⟨hsteps (hfirst.legible hd), List.forall_mem_cons.2 ⟨?_, ih⟩⟩
    exact List.forall_mem_singleton.2 ⟨_, .divider⟩

/-! ### From delimiters to others -/

/-- Alternatives that a text spells in any delimiters are spelled by their rendering in those in
which all their steps have a spelling. -/
theorem SpellsAlternatives.render {d' : Delimiters} (hd : d.Legal) (hd' : d'.Legal)
    {text : List Char} {paths : List (List Step)} (h : SpellsAlternatives d text paths)
    (hspelled : ∀ path ∈ paths, ∀ s ∈ path, Spelled d' s) :
    SpellsAlternatives d' (renderAlternatives d' paths) paths := by
  have hsteps : ∀ {text : List Char} {steps : List Step}, SpellsSteps d text steps →
      (∀ s ∈ steps, Spelled d' s) → SpellsSteps d' (renderSteps d' steps) steps := by
    intro text steps h hs
    have hlegible : Legible d' steps := ⟨hs, (h.legible hd).apart⟩
    rw [hlegible.renderSteps_eq]
    exact hlegible.spells hd'
  induction h with
  | last h => exact .last (hsteps h (List.forall_mem_singleton.1 hspelled))
  | cons hfirst hrest ih =>
    obtain ⟨hpath, hpaths⟩ := List.forall_mem_cons.1 hspelled
    cases hrest with
    | last h => exact .cons (hsteps hfirst hpath) (ih hpaths)
    | cons h => exact .cons (hsteps hfirst hpath) (ih hpaths)

/-- What a text spells in any delimiters is spelled by its rendering in those in which all its steps
have a spelling. -/
theorem Spells.render_of_spelled {d' : Delimiters} (hd : d.Legal) (hd' : d'.Legal)
    {text : List Char} {ops : List Op} (h : Spells d text ops)
    (hspelled : ∀ op ∈ ops, ∀ s ∈ op.steps, Spelled d' s) : Spells d' (renderOps d' ops) ops := by
  have hlegible : ∀ {steps : List Step} {rest : List Op}, Legible d steps →
      (∀ op ∈ steps.map .step ++ rest, ∀ s ∈ op.steps, Spelled d' s) → Legible d' steps := by
    intro steps rest h hspelled
    refine ⟨fun s hs => ?_, h.apart⟩
    exact hspelled (.step s) (List.mem_append_left _ (List.mem_map_of_mem hs)) s
      (List.mem_singleton_self s)
  induction h with
  | @steps text steps hsteps =>
    rw [← List.append_nil (steps.map Op.step)] at hspelled ⊢
    have hlegible := hlegible (hsteps.legible hd) hspelled
    have hnil : Spells d' [] [] := .steps (.nil blank_nil)
    have happend := Spells.append_front hd' hlegible (Or.inl ⟨rfl, by simp⟩) hnil
    rw [hlegible.renderOps_append (Or.inl (by simp))]
    exact happend
  | @alternation text body lead path paths hlead hbody hne hstart =>
    obtain ⟨hbefore, hmay⟩ := hlead.legible
    have hlegible := hlegible hbefore hspelled
    obtain ⟨hsettled, hkeys⟩ := settled_of_mayLead hmay
    have hpaths := hbody.render hd hd' fun path hpath s hs =>
      hspelled _ (List.mem_append_right _ List.mem_cons_self) s
        (List.mem_flatten.2 ⟨path, hpath, hs⟩)
    have hrest : Spells d' (renderAlternatives d' (path :: paths))
        [.alternatives (path :: paths)] := .alternation (.nil blank_nil) hpaths hne hstart
    rw [hlegible.renderOps_append (Or.inr hkeys)]
    exact .append_front hd' hlegible (Or.inr hsettled) hrest
  | @segment first rest steps ops hfirst _ ih =>
    have hlegible := hlegible (hfirst.legible hd) hspelled
    have hrest := ih fun op hop =>
      hspelled op (List.mem_append_right _ (List.mem_cons_of_mem _ hop))
    have hdivider : ∀ op ∈ (Op.divider :: ops).head?, op.isKey = false ∧
        op.isAlternatives = false := by
      intro op hop
      obtain rfl := Option.mem_some_iff.1 hop
      exact ⟨rfl, rfl⟩
    rw [hlegible.renderOps_append (Or.inl hdivider), renderOps_cons fun h => by
      simp [Op.divider, Op.isKey] at h]
    exact .append_front hd' hlegible (Or.inl ⟨rfl, fun _ _ _ op hop => (hdivider op hop).1⟩)
      (.cons_divider hrest)

/-- What any text spells is spelled by its own rendering. -/
theorem Spells.render (hd : d.Legal) {text : List Char} {ops : List Op} (h : Spells d text ops) :
    Spells d (renderOps d ops) ops :=
  h.render_of_spelled hd hd (h.spelled hd)

/-! ### Compiled paths -/

/-- The text of a compiled path compiles to the same operations, for all delimiters that open no
index or default with a character that can stand inside an index. -/
theorem compile_render (c : Compiler) (text : String) (p : Path)
    (hindex : c.delimiters.indexOpen ≠ '-' ∧ c.delimiters.indexOpen ≠ c.delimiters.rangeSeparator)
    (hdefault : c.delimiters.defaultOpen ≠ '-' ∧
      c.delimiters.defaultOpen ≠ c.delimiters.rangeSeparator)
    (h : c.compile text = .ok p) : c.compile (p.render c.delimiters) = .ok p := by
  have hd : c.delimiters.Separable :=
    ⟨Delimiters.legal_of_validate c.valid, hindex.1, hindex.2, hdefault.1, hdefault.2⟩
  rw [Compiler.compile, map_eq_ok_iff] at h ⊢
  obtain ⟨ops, hops, rfl⟩ := h
  obtain ⟨hspells, hsingle⟩ := (compileOps_eq_ok_iff hd).1 hops
  refine ⟨ops, (compileOps_eq_ok_iff hd).2 ⟨?_, hsingle⟩, rfl⟩
  rw [Path.render, String.toList_ofList]
  exact hspells.render hd.toLegal

/-- A blank and a leading zero are not rendered, and nothing else is lost. -/
theorem compile_render_index :
    Compiler.standard.compile "[01] .a|b" =
      .ok ⟨[.index (.one (.at 1)), .divider, .alternatives [[.key "a"], [.key "b"]]]⟩ ∧
    Compiler.standard.compile (Path.render .standard
        ⟨[.index (.one (.at 1)), .divider, .alternatives [[.key "a"], [.key "b"]]]⟩) =
      .ok ⟨[.index (.one (.at 1)), .divider, .alternatives [[.key "a"], [.key "b"]]]⟩ := by
  have hindex : SpellsSteps .standard "[01] ".toList [.index (.one (.at 1))] := by
    have hbound : SpellsBound .standard ['0', '1'] (.at 1) :=
      .positive ⟨List.cons_ne_nil _ _, List.all_eq_true.1 (by decide)⟩ (by decide)
    have htoken := SpellsStep.index (.one hbound (padded_self _)) (by decide)
    exact .cons blank_nil htoken nofun (.nil (List.forall_mem_singleton.2 (by decide)))
  have hkey : ∀ c ∈ ['a', 'b'], SpellsSteps .standard [c] [.key (.ofList [c])] := by
    intro c hc
    have hname : KeyName .standard [c] := by
      have hc : c = 'a' ∨ c = 'b' := by simpa using hc
      rcases hc with rfl | rfl <;>
        exact ⟨List.cons_ne_nil _ _, by decide, List.forall_mem_singleton.2 (by decide)⟩
    exact .cons blank_nil (.key hname) nofun (.nil blank_nil)
  have halternatives : SpellsAlternatives .standard "a|b".toList [[.key "a"], [.key "b"]] :=
    .cons (hkey 'a' (by decide)) (.last (hkey 'b' (by decide)))
  have hspells := Spells.segment hindex (.alternation (.nil blank_nil) halternatives
    (List.cons_ne_nil _ _) (by simp [StartsInside, Step.mayLead]))
  have hcompile : Compiler.standard.compile "[01] .a|b" =
      .ok ⟨[.index (.one (.at 1)), .divider, .alternatives [[.key "a"], [.key "b"]]]⟩ := by
    refine map_eq_ok_iff.2 ⟨_, (compileOps_eq_ok_iff Delimiters.separable_standard).2 ⟨hspells, ?_⟩,
      rfl⟩
    simp [Op.Single, Op.divider, Step.isSingle]
  exact ⟨hcompile, compile_render .standard "[01] .a|b" _ (by decide) (by decide) hcompile⟩

end DocPath
