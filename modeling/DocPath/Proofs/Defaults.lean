import DocPath.Proofs.Coercions
import DocPath.Proofs.IndexText
import DocPath.Proofs.Meaning
import DocPath.Proofs.Obtainable
import DocPath.Proofs.QuotedDefaults
import DocPath.Proofs.Visits

/-!
# DocPath.Proofs.Defaults

The defaults of compiled paths. Whatever the delimiters, a default comes from the reader of its
brackets, so its value is what its source gives for its type, and the text written for it is
compiled to it again (`Default.Sound`). In particular it is never null, and neither is a value after
a default: not in a branch of a walk that has just gone through one, nor in an alternative
(`compiled_default_sound`).
-/

namespace DocPath

open DocPath.Text

variable {d : Delimiters}

/-! ### Compiled defaults -/

/-- A default with a spelling is compiled from the text written for it. -/
theorem compileOps_render_default (hd : d.Legal) {v : Default} (h : Spelled d (.default v)) :
    compileOps d (v.render d) = .ok [.step (.default v)] := by
  obtain ⟨token, htoken⟩ := h
  have hrender := htoken.render hd
  rw [Step.render] at hrender
  generalize v.render d = text at hrender
  cases hrender with
  | @default inside v hdefault hquoted =>
    have htrim := trim_of_ends (hd.notBlank .defaultOpen) (hd.notBlank .defaultClose) inside
    refine compileOps_of_turn htrim (Passes.default hquoted).uncut ?_
    exact (turn_defaultOpen_iff hd).2 ⟨inside, v, rfl, hdefault, hquoted, rfl⟩

/-- What a compiler makes sure of for each default. -/
structure Default.Sound (c : Compiler) (v : Default) : Prop where
  ne_null : v.value ≠ .null
  /-- The value is of the type that is named, or the text itself where a number was named and the
  text is none. -/
  typed : v.kind.Gives (unquote v.source.toList) v.value
  /-- The source is read as the same value again. -/
  coerced : v.kind.coerce v.source.toList = .ok v.value
  /-- The text written for the default is compiled to the same default again. -/
  compiled : c.compile (.ofList (v.render c.delimiters)) = .ok ⟨[.step (.default v)]⟩

theorem sound_of_spelled {c : Compiler} {v : Default} (h : Spelled c.delimiters (.default v)) :
    v.Sound c := by
  have hcompiled := compileOps_render_default (Delimiters.legal_of_validate c.valid) h
  obtain ⟨token, htoken⟩ := h
  cases htoken with
  | default hdefault _ =>
    cases hdefault with
    | @mk source left right kind value _ _ _ hcoerce =>
      have htyped := coerce_eq_ok_iff.1 hcoerce
      refine ⟨htyped.ne_null, ?_, ?_, ?_⟩
      · rwa [String.toList_ofList]
      · rwa [String.toList_ofList]
      · exact map_eq_ok_iff.2 ⟨_, by rwa [String.toList_ofList], rfl⟩

/-! ### Values after a default -/

/-- A default leaves a value that is not null. -/
theorem Default.value_apply_ne_null {v : Default} (hv : v.value ≠ .null) (h : Held) :
    (v.apply h).value ≠ .null := by
  rw [v.value_apply]
  split
  next => exact hv
  next hnull =>
    intro heq
    rw [heq] at hnull
    exact hnull rfl

theorem visit_default (h : Held) (trail : Trail) (v : Default) (rest : List Op) :
    visit h trail (.step (.default v) :: rest) = .branches [v.apply h] trail := by
  simp [visit, Op.letsNullThrough, Step.apply]

/-- No frame that a walk comes to is at null directly after a default. -/
theorem Frame.value_ne_null_of_reaches {f g : Frame} (h : Relation.ReflTransGen Frame.Opens f g)
    {before : List Op} {v : Default} (hv : v.value ≠ .null)
    (hops : f.ops = before ++ .step (.default v) :: g.ops) : g.value.value ≠ .null := by
  obtain ⟨opener, -, ⟨values, trail, hvisit, hg⟩, hopener⟩ := exists_opens_of_reaches h hops
  rw [Frame.visit, hopener, visit_default] at hvisit
  obtain ⟨rfl, rfl⟩ := Visit.branches.inj hvisit
  obtain ⟨value, hvalue, rfl⟩ := List.mem_map.1 hg
  rw [List.mem_singleton.1 hvalue]
  exact Default.value_apply_ne_null hv opener.value

/-- **Compiled defaults are present and typed.** In a path that any compiler has made of any text,
every default is sound, those of its alternatives included. So no frame that ever stands on the
stack of a walk, after `k` results and `n` visits in the search for the next one, is at null directly
after a default; nor is an alternative, whatever value it is evaluated against. -/
theorem compiled_default_sound {c : Compiler} {text : String} {p : Path}
    (h : c.compile text = .ok p) :
    (∀ v, .default v ∈ p.steps → v.Sound c) ∧
      (∀ root k n, ∀ f ∈ Walk.visitTop^[n] ((fun w : Walk => w.next.2)^[k] (.start p root)).stack,
        ∀ before v, p.ops = before ++ .step (.default v) :: f.ops → f.value.value ≠ .null) ∧
      ∀ paths, .alternatives paths ∈ p.ops → ∀ before v after,
        before ++ .default v :: after ∈ paths → ∀ held trail,
          (applySteps held trail (before ++ [.default v])).1.value ≠ .null := by
  obtain ⟨ops, hops, rfl⟩ := map_eq_ok_iff.1 h
  have hlegal := Delimiters.legal_of_validate c.valid
  have hsound : ∀ v, .default v ∈ Path.steps ⟨ops⟩ → v.Sound c := fun v hv =>
    sound_of_spelled (spelled_of_mem_steps hlegal hops _ hv)
  have hmem : ∀ op ∈ ops, ∀ s ∈ op.steps, s ∈ Path.steps ⟨ops⟩ := fun op hop s hs =>
    List.mem_flatMap.2 ⟨op, hop, hs⟩
  refine ⟨hsound, ?_, ?_⟩
  · intro root k n f hf before v hbefore
    have hop : .step (.default v) ∈ ops := by
      rw [show ops = _ from hbefore]
      exact List.mem_append_right before List.mem_cons_self
    have hv := hsound v (hmem _ hop _ List.mem_cons_self)
    exact Frame.value_ne_null_of_reaches (Walk.reaches_of_mem_stack hf) hv.ne_null hbefore
  · intro paths hpaths before v after hpath held trail
    have hstep : .default v ∈ paths.flatten :=
      List.mem_flatten.2 ⟨_, hpath, List.mem_append_right before List.mem_cons_self⟩
    have hv := hsound v (hmem _ hpaths _ hstep)
    rw [applySteps_append]
    exact Default.value_apply_ne_null hv.ne_null _

/-- In an alternative, a default of an integer whose text is none. -/
theorem compiled_default_sound_text :
    let v : Default := ⟨.string "x", .int, "x"⟩
    let path : List Step := [.key "a", .default v]
    Path.ofText? "b|a<x:int>" = .ok ⟨[.alternatives [[.key "b"], path]]⟩ ∧ v.Sound .standard ∧
      ∀ held trail, (applySteps held trail path).1.value ≠ .null := by
  intro v path
  have hinside : SpellsDefault .standard ['x', ':', 'i', 'n', 't'] v :=
    .mk (by decide) (padded_self ['x']) (padded_self _) rfl
  have hquotes : ∀ c ∈ ['x', ':', 'i', 'n', 't'],
      c ≠ Delimiters.standard.defaultClose ∧ isQuote c = false := by
    simp only [List.forall_mem_cons]
    exact ⟨by decide, by decide, by decide, by decide, by decide, nofun⟩
  have htoken := SpellsStep.default hinside (quoted_of_forall (by decide) hquotes)
  have hdefault : SpellsStep .standard (v.render .standard) (.default v) :=
    htoken.render Delimiters.separable_standard.toLegal
  have ha : KeyName .standard ['a'] := keyName_singleton (by decide) (by decide)
  have hb : KeyName .standard ['b'] := keyName_singleton (by decide) (by decide)
  obtain ⟨-, -, hops⟩ := compileOps_key_default Delimiters.separable_standard hdefault ha hb
  have hcompile : Path.ofText? "b|a<x:int>" = .ok ⟨[.alternatives [[.key "b"], path]]⟩ :=
    ofText?_of_toList (by simp [v, Default.render, DefaultKind.name, Delimiters.standard,
      Role.defaultChar]) hops
  obtain ⟨hsound, -, halternatives⟩ := compiled_default_sound hcompile
  refine ⟨hcompile, hsound v (by simp [Path.steps, Op.steps, path]), ?_⟩
  exact halternatives _ List.mem_cons_self [.key "a"] v [] (by simp [path])

end DocPath
