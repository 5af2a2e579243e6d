import DocPath.Proofs.Arrivals
import DocPath.Proofs.Building
import DocPath.Proofs.Equality
import DocPath.Proofs.WalkMeaning

/-!
# DocPath.Proofs.EqualWalks

Walking respects equality. Equal documents, walked along equal paths, give as many results, equal
one by one, and the same failure (`results_equal`); so a walk never shows in which order the entries
of a mapping stand.

The two walks go in step: whatever one of them does to a value, the other does to one that is alike,
first in a single step (`Step.Alike.on`), then in the runs of alternatives (`alike_runSteps`,
`alike_runAlternatives`), and at last in all branches (`sameResult_meaning`). Defaults bring in
values of the paths, so the names in these have to be distinct as those of documents are.
-/

namespace DocPath

open List (Forall₂)

variable {v w : Value} {trail trail' : List Value}

/-! ### Values -/

theorem forall₂_getElem? {α β : Type} {R : α → β → Prop} {as : List α} {bs : List β}
    (h : Forall₂ R as bs) (n : Nat) : Option.Rel R as[n]? bs[n]? := by
  induction h generalizing n with
  | nil => exact .none
  | cons hab _ ih =>
    cases n with
    | zero => exact .some hab
    | succ n => exact ih n

namespace Value

theorem alike_getD {found found' : Option Value} (h : Option.Rel Alike found found') :
    (found.getD .null).Alike (found'.getD .null) := by
  cases h with
  | none => exact alike_null
  | some h => exact h

theorem Alike.entry (h : v.Alike w) (name : String) : (v.entry name).Alike (w.entry name) := by
  cases h.sameForm with
  | mapping hlookup => exact alike_getD (hlookup name)
  | _ => exact h

/-- What an index makes of alike values is alike. -/
theorem Alike.indexed (h : v.Alike w) (i : Index) : (i.on v).Alike (i.on w) := by
  cases h.sameForm with
  | @sequence as bs hitems =>
    rw [Index.on, Index.on, hitems.length_eq]
    cases i.select bs.length with
    | all => exact h
    | element found =>
      cases found with
      | none => exact alike_null
      | some n => exact alike_getD (forall₂_getElem? hitems n)
    | slice start stop =>
      exact .sequence (List.forall₂_drop start (List.forall₂_take stop hitems))
  | _ => exact h

/-- The branches that an index opens from alike sequences are alike one by one. -/
theorem alike_opened {as bs : List Value} (h : Forall₂ Alike as bs) (i : Index) :
    Forall₂ Alike (i.opened as) (i.opened bs) := by
  rw [Index.opened, Index.opened, h.length_eq]
  cases i.select bs.length with
  | all => exact h
  | slice start stop => exact List.forall₂_drop start (List.forall₂_take stop h)
  | element found =>
    cases found with
    | none => exact .nil
    | some n =>
      have hn := forall₂_getElem? h n
      dsimp only
      generalize as[n]? = found at hn ⊢
      generalize bs[n]? = found' at hn ⊢
      cases hn with
      | none => exact .nil
      | some hvw =>
        cases hvw.sameForm with
        | sequence hinner => exact hinner
        | _ => exact .cons hvw .nil

end Value

/-! ### Steps -/

/-- Equal steps; the values of defaults have distinct names. -/
inductive Step.Alike : Step → Step → Prop
  | same {s : Step} : (∀ d, s ≠ .default d) → Alike s s
  | default {d e : Default} : d.value.Alike e.value → Alike (.default d) (.default e)

/-- Equal operations, made of alike steps. -/
inductive Op.Alike : Op → Op → Prop
  | step {s t : Step} : s.Alike t → Alike (.step s) (.step t)
  | alternatives {paths paths' : List (List Step)} :
      Forall₂ (Forall₂ Step.Alike) paths paths' →
      Alike (.alternatives paths) (.alternatives paths')

theorem equalLists_iff {α : Type} {equal : α → α → Bool} {as bs : List α} :
    equalLists equal as bs = true ↔ Forall₂ (fun a b => equal a b = true) as bs := by
  induction as generalizing bs with
  | nil =>
    rw [List.forall₂_nil_left_iff]
    cases bs <;> simp [equalLists]
  | cons a as ih =>
    cases bs with
    | nil => simp [equalLists]
    | cons b bs => rw [equalLists, Bool.and_eq_true, ih, List.forall₂_cons]

theorem Step.alike_of_equal {s t : Step} (h : s.equal t = true)
    (hdistinct : ∀ d, s = .default d → d.value.Distinct) : s.Alike t := by
  cases s with
  | default d =>
    cases t with
    | default e =>
      rw [Step.equal, Default.equal, Bool.and_eq_true, Bool.and_eq_true] at h
      exact .default ⟨hdistinct d rfl, h.1.1⟩
    | _ => simp [Step.equal] at h
  | key name =>
    cases t with
    | key name' =>
      obtain rfl : name = name' := by simpa [Step.equal] using h
      exact .same nofun
    | _ => simp [Step.equal] at h
  | index i =>
    cases t with
    | index j =>
      obtain rfl : i = j := by simpa [Step.equal] using h
      exact .same nofun
    | _ => simp [Step.equal] at h
  | capture =>
    cases t with
    | capture => exact .same nofun
    | _ => simp [Step.equal] at h
  | divider =>
    cases t with
    | divider => exact .same nofun
    | _ => simp [Step.equal] at h
  | anyEntry =>
    cases t with
    | anyEntry => exact .same nofun
    | _ => simp [Step.equal] at h

theorem alike_steps {steps steps' : List Step} (h : equalLists Step.equal steps steps' = true)
    (hdistinct : ∀ d, .default d ∈ steps → d.value.Distinct) :
    Forall₂ Step.Alike steps steps' := by
  have hsteps : ∀ s ∈ steps, ∀ d, s = .default d → d.value.Distinct := by
    rintro s hs d rfl
    exact hdistinct d hs
  exact ((List.forall₂_and_left _ _).2 ⟨hsteps, equalLists_iff.1 h⟩).imp
    fun _ _ hst => Step.alike_of_equal hst.2 hst.1

theorem Op.alike_of_equal {op op' : Op} (h : op.equal op' = true)
    (hdistinct : ∀ d, .default d ∈ op.steps → d.value.Distinct) : op.Alike op' := by
  cases op with
  | step s =>
    cases op' with
    | step t =>
      refine .step (Step.alike_of_equal h fun d hd => hdistinct d ?_)
      exact List.mem_singleton.2 hd.symm
    | alternatives => simp [Op.equal] at h
  | alternatives paths =>
    cases op' with
    | step => simp [Op.equal] at h
    | alternatives paths' =>
      have hpaths : ∀ path ∈ paths, ∀ d, .default d ∈ path → d.value.Distinct :=
        fun path hpath d hd => hdistinct d (List.mem_flatten.2 ⟨path, hpath, hd⟩)
      have hequal : Forall₂ (fun path path' => equalLists Step.equal path path' = true) paths
        paths' := equalLists_iff.1 h
      exact .alternatives (((List.forall₂_and_left _ _).2 ⟨hpaths, hequal⟩).imp
        fun _ _ hpath => alike_steps hpath.2 hpath.1)

/-- The operations of equal paths are alike one by one. -/
theorem alike_ops {p q : Path} (h : p.equal q = true)
    (hdistinct : ∀ d, .default d ∈ p.steps → d.value.Distinct) :
    Forall₂ Op.Alike p.ops q.ops := by
  have hops : ∀ op ∈ p.ops, ∀ d, .default d ∈ op.steps → d.value.Distinct :=
    fun op hop d hd => hdistinct d (List.mem_flatMap.2 ⟨op, hop, hd⟩)
  exact ((List.forall₂_and_left _ _).2 ⟨hops, equalLists_iff.1 h⟩).imp
    fun _ _ hop => Op.alike_of_equal hop.2 hop.1

/-! ### What steps do -/

/-- Alike steps make alike values of alike values. -/
theorem Step.Alike.on {s t : Step} (hst : s.Alike t) (h : v.Alike w) : (s.on v).Alike (t.on w) := by
  cases hst with
  | default hde =>
    rw [Step.on, Step.on, h.isNull_eq]
    split
    next => exact hde
    next => exact h
  | same hnot =>
    cases s with
    | key name => exact h.entry name
    | index i => exact h.indexed i
    | default d => exact absurd rfl (hnot d)
    | _ => exact h

theorem Step.Alike.captured {s t : Step} (hst : s.Alike t) (h : v.Alike w) :
    Forall₂ Value.Alike (s.captured v) (t.captured w) := by
  cases hst with
  | default => exact .nil
  | same =>
    cases s with
    | capture => exact .cons h .nil
    | _ => exact .nil

theorem alike_runSteps {steps steps' : List Step} (hsteps : Forall₂ Step.Alike steps steps')
    (h : v.Alike w) (htrail : Forall₂ Value.Alike trail trail') :
    (runSteps v trail steps).1.Alike (runSteps w trail' steps').1 ∧
      Forall₂ Value.Alike (runSteps v trail steps).2 (runSteps w trail' steps').2 := by
  induction hsteps generalizing v w trail trail' with
  | nil => exact ⟨h, htrail⟩
  | cons hst _ ih => exact ih (hst.on h) (List.rel_append htrail (hst.captured h))

theorem alike_runAlternatives {paths paths' : List (List Step)}
    (hpaths : Forall₂ (Forall₂ Step.Alike) paths paths') (h : v.Alike w)
    (htrail : Forall₂ Value.Alike trail trail') :
    Forall₂ Value.Alike (runAlternatives v trail paths).1 (runAlternatives w trail' paths').1 ∧
      Forall₂ Value.Alike (runAlternatives v trail paths).2
        (runAlternatives w trail' paths').2 := by
  induction hpaths generalizing trail trail' with
  | nil => exact ⟨.nil, htrail⟩
  | cons hsteps _ ih =>
    obtain ⟨hvalue, htrail⟩ := alike_runSteps hsteps h htrail
    obtain ⟨hvalues, htrail⟩ := ih htrail
    exact ⟨.cons hvalue hvalues, htrail⟩

theorem alike_leaf (h : v.Alike w) (htrail : Forall₂ Value.Alike trail trail') :
    (leaf v trail).Alike (leaf w trail') := by
  cases htrail with
  | nil => exact h
  | cons hcaptured htrail =>
    exact .sequence (List.rel_append (.cons hcaptured htrail) (.cons h .nil))

/-! ### Results -/

/-- Results that are equal items, or the same failure. -/
inductive SameResult : Except WalkError Value → Except WalkError Value → Prop
  | item {v w : Value} : v.equal w = true → SameResult (.ok v) (.ok w)
  | failure (e : WalkError) : SameResult (.error e) (.error e)

theorem Step.Alike.prunes_iff {s t : Step} (hst : s.Alike t) (h : v.Alike w) :
    s.Prunes v ↔ t.Prunes w := by
  rw [Step.Prunes, Step.Prunes, h.isNull_eq]
  cases hst with
  | default => rfl
  | same => rfl

/-- An index gives the same results of alike values if the branches that it opens do so. -/
theorem sameResult_index {i : Index} {rest rest' : List Op} (h : v.Alike w)
    (hv : ¬ (Step.index i).Prunes v) (hw : ¬ (Step.index i).Prunes w)
    (hrest : ∀ {v w : Value}, v.Alike w →
      Forall₂ SameResult (meaning v trail rest) (meaning w trail' rest')) :
    Forall₂ SameResult (meaning v trail (.step (.index i) :: rest))
      (meaning w trail' (.step (.index i) :: rest')) := by
  cases hsequence : v.isSequence with
  | false =>
    rw [meaning_of_failure i hv hsequence, meaning_of_failure i hw (h.isSequence_eq ▸ hsequence),
      h.kindName_eq]
    exact .cons (.failure _) .nil
  | true =>
    cases h.sameForm with
    | sequence hitems =>
      rw [meaning_of_sequence, meaning_of_sequence]
      exact List.rel_flatMap (Value.alike_opened hitems i) fun _ _ => hrest
    | _ => cases hsequence

/-- Alike branches give the same results, one by one. -/
theorem sameResult_meaning {ops ops' : List Op} (hops : Forall₂ Op.Alike ops ops')
    (h : v.Alike w) (htrail : Forall₂ Value.Alike trail trail') :
    Forall₂ SameResult (meaning v trail ops) (meaning w trail' ops') := by
  induction hops generalizing v w trail trail' with
  | nil =>
    rw [meaning, meaning, h.isNull_eq]
    split
    next => exact .nil
    next => exact .cons (.item (alike_leaf h htrail).2) .nil
  | cons hop _ ih =>
    cases hop with
    | alternatives hpaths =>
      obtain ⟨hvalues, htrail⟩ := alike_runAlternatives hpaths h htrail
      rw [meaning_alternation, meaning_alternation, h.isNull_eq]
      split
      next => exact .nil
      next => exact .cons (.item (Value.Alike.sequence (List.rel_append htrail hvalues)).2) .nil
    | @step s t hst =>
      by_cases hprunes : s.Prunes v
      · rw [meaning_of_prunes hprunes, meaning_of_prunes ((hst.prunes_iff h).1 hprunes)]
        exact .nil
      have hprunes' : ¬ t.Prunes w := fun ht => hprunes ((hst.prunes_iff h).2 ht)
      cases hs : s.isIndex with
      | false =>
        have ht : t.isIndex = false := by
          cases hst with
          | default => rfl
          | same => exact hs
        rw [meaning_of_step hprunes hs, meaning_of_step hprunes' ht]
        exact ih (hst.on h) (List.rel_append htrail (hst.captured h))
      | true =>
        cases hst with
        | default => cases hs
        | same =>
          cases s with
          | index i => exact sameResult_index h hprunes hprunes' fun h => ih h htrail
          | _ => cases hs

theorem sameResult_upToError {results results' : List (Except WalkError Value)}
    (h : Forall₂ SameResult results results') :
    Forall₂ SameResult (upToError results) (upToError results') := by
  induction h with
  | nil => exact .nil
  | cons hr _ ih =>
    cases hr with
    | item hvw => exact .cons (.item hvw) ih
    | failure e => exact .cons (.failure e) .nil

/-- **Walking respects equality.** The walks of equal documents along equal paths give the same
results: equal items one by one, and the same failure at the end if there is one. The names in every
mapping are distinct, as they are in all documents. -/
theorem results_equal {p q : Path} {a b : Value} (hpq : p.equal q = true) (hab : a.equal b = true)
    (hp : ∀ d, .default d ∈ p.steps → d.value.Distinct) (ha : a.Distinct) :
    Forall₂ SameResult (Walk.start p a).results (Walk.start q b).results := by
  rw [Walk.results_start, Walk.results_start]
  exact sameResult_upToError (sameResult_meaning (alike_ops hpq hp) ⟨ha, hab⟩ .nil)

/-- The entries of the document and of a default stand in another order, and a zero has another
sign. -/
theorem results_equal_reordered :
    let zero (negative : Bool) : Value := .ofFloat (.zero negative)
    let a := Value.mapping [("x", zero false), ("y", .sequence [.bool true])]
    let b := Value.mapping [("y", .sequence [.bool true]), ("x", zero true)]
    let path (v : Value) : Path := ⟨[.capture, .key "z", .step (.default ⟨v, .dict, "d"⟩)]⟩
    (path a).equal (path b) = true ∧ a.equal b = true ∧
      (∀ d, .default d ∈ (path a).steps → d.value.Distinct) ∧ a.Distinct ∧
      Forall₂ SameResult (Walk.start (path a) a).results (Walk.start (path b) b).results ∧
      (Walk.start (path a) a).results = [.ok (.sequence [a, a])] := by
  intro zero a b path
  have ha : a.Distinct := by
    refine .mapping (by decide) (List.forall_mem_cons.2 ⟨.number _, List.forall_mem_singleton.2 ?_⟩)
    exact .sequence (List.forall_mem_singleton.2 (.bool true))
  have hpath : ∀ d, .default d ∈ (path a).steps → d.value.Distinct := by
    intro d hd
    obtain rfl : d = ⟨a, .dict, "d"⟩ := by
      simpa [path, Path.steps, Op.steps, Op.capture, Op.key] using hd
    exact ha
  have hequal : a.equal b = true := by decide
  have hpaths : (path a).equal (path b) = true := by decide
  refine ⟨hpaths, hequal, hpath, ha, results_equal hpaths hequal hpath ha, ?_⟩
  rw [Walk.results_start]
  rfl

end DocPath
