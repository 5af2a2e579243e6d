import DocPath.Delimiters.Validation
import DocPath.Path.Build
import Mathlib.Data.List.Pairwise

/-!
# DocPath.Proofs.Delimiters

What validated delimiters have in common (`legal_of_validate`): none is alphanumeric or blank, the
structural ones differ from each other, and the bracketed ones differ from what can stand in the
same brackets. `Separable` delimiters moreover never open a bracket with a character that can stand
inside an index, which keeps the scans of a text in step with each other.
-/

namespace DocPath.Delimiters

open DocPath.Text

/-- What validation ensures. -/
structure Legal (d : Delimiters) : Prop where
  notAlphanumeric : ∀ r, isAlphanumeric (d.char r) = false
  notBlank : ∀ r, isBlank (d.char r) = false
  /-- Two structural roles never have the same character. -/
  structural : ∀ r ∈ Role.structural, ∀ s ∈ Role.structural, r ≠ s → d.char r ≠ d.char s
  /-- A bracketed delimiter has no character of what stands in its brackets. -/
  bracketed : ∀ r h, (r, h) ∈ bracketClashes → d.char r ≠ d.holderChar h

/-- Legal delimiters whose opening characters of indexes and defaults cannot stand inside an
index. -/
structure Separable (d : Delimiters) : Prop extends Legal d where
  indexOpen_ne_minus : d.indexOpen ≠ '-'
  indexOpen_ne_range : d.indexOpen ≠ d.rangeSeparator
  defaultOpen_ne_minus : d.defaultOpen ≠ '-'
  defaultOpen_ne_range : d.defaultOpen ≠ d.rangeSeparator

theorem mem_structural_or_bracketed (r : Role) : r ∈ Role.structural ++ Role.bracketed := by
  cases r <;> decide

theorem not_unusable {d : Delimiters} (h : d.unusable? = none) (r : Role) :
    isAlphanumeric (d.char r) = false ∧ isBlank (d.char r) = false := by
  have hr := List.findSome?_eq_none_iff.1 h r (mem_structural_or_bracketed r)
  split at hr
  next => simp at hr
  next hne => simpa using hne

theorem pairwise_of_firstRepeat? {d : Delimiters} {roles : List Role}
    (h : d.firstRepeat? roles = none) : roles.Pairwise fun r s => d.char r ≠ d.char s := by
  induction roles with
  | nil => exact List.Pairwise.nil
  | cons r rest ih =>
    unfold firstRepeat? at h
    split at h
    next => simp at h
    next hnone =>
      refine List.pairwise_cons.2 ⟨fun s hs => ?_, ih h⟩
      simpa using List.find?_eq_none.1 hnone s hs

/-- Validated delimiters are legal. -/
theorem legal_of_validate {d : Delimiters} (h : d.validate = .ok ()) : d.Legal := by
  have hfault := validate_eq_ok_iff.1 h
  rw [fault?, Option.or_eq_none_iff, Option.or_eq_none_iff] at hfault
  obtain ⟨⟨hunusable, hrepeat⟩, hclash⟩ := hfault
  refine ⟨fun r => (not_unusable hunusable r).1, fun r => (not_unusable hunusable r).2, ?_, ?_⟩
  · intro r hr s hs hne
    have : Std.Symm fun r s => d.char r ≠ d.char s := ⟨fun _ _ h => h.symm⟩
    exact (pairwise_of_firstRepeat? hrepeat).forall hr hs hne
  · intro r holder hmem heq
    have hnone := List.findSome?_eq_none_iff.1 hclash (r, holder) hmem
    simp [heq] at hnone

namespace Legal

variable {d : Delimiters}

/-- Two structural delimiters differ. -/
theorem ne (h : d.Legal) {r s : Role}
    (hrs : r ∈ Role.structural ∧ s ∈ Role.structural ∧ r ≠ s) : d.char r ≠ d.char s :=
  h.structural r hrs.1 s hrs.2.1 hrs.2.2

/-- No delimiter is a letter or a digit. -/
theorem ne_of_isAlphanum (h : d.Legal) (r : Role) {c : Char} (hc : c.isAlphanum = true) :
    d.char r ≠ c := by
  intro heq
  have halnum := isAlphanumeric_of_isAlphanum hc
  rw [← heq, h.notAlphanumeric r] at halnum
  simp at halnum

theorem not_mem_keyStops (h : d.Legal) {c : Char} (hc : c.isAlphanum = true) :
    c ∉ d.keyStops := by
  simp only [Delimiters.keyStops, List.mem_cons, List.not_mem_nil, or_false, not_or]
  exact ⟨(h.ne_of_isAlphanum .segmentDivider hc).symm,
    (h.ne_of_isAlphanum .contextMarker hc).symm, (h.ne_of_isAlphanum .indexOpen hc).symm,
    (h.ne_of_isAlphanum .defaultOpen hc).symm, (h.ne_of_isAlphanum .anyEntryOpen hc).symm,
    (h.ne_of_isAlphanum .alternation hc).symm, (h.ne_of_isAlphanum .continuation hc).symm⟩

theorem ne_of_isDigit (h : d.Legal) (r : Role) {c : Char} (hc : c.isDigit = true) :
    d.char r ≠ c :=
  h.ne_of_isAlphanum r (by simp [Char.isAlphanum, hc])

theorem ne_of_isBlank (h : d.Legal) (r : Role) {c : Char} (hc : isBlank c = true) :
    d.char r ≠ c := by
  intro heq
  rw [← heq, h.notBlank r] at hc
  simp at hc

end Legal

/-- The default delimiters are separable. -/
theorem separable_standard : standard.Separable where
  toLegal := legal_of_validate validate_standard
  indexOpen_ne_minus := by decide
  indexOpen_ne_range := by decide
  defaultOpen_ne_minus := by decide
  defaultOpen_ne_range := by decide

end DocPath.Delimiters
