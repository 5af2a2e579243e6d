import DocPath.Path.Scan

/-!
# DocPath.Proofs.Scan

The two scans of a text in step with each other.

* `Quoted` says where a default ends, without a scan: every quotation is closed, and the closing
  character stands in quotations only. `closing?_quoted_iff` and `closing?_plain_iff` say that
  `closing?` finds exactly that end.
* `Crosses` says that the other scan, `split`, goes over a text from one zone into another without
  a cut. The inside of a default leaves it inside the default (`crosses_quoted`), so both scans
  agree on where the default ends; a text that it crosses from outside back to outside
  (`Passes`) can be put in front of any other without changing how that one is cut.
* Every part of a split is itself uncut, by the same separator and by every other one that does
  not cut the whole (`uncut_of_mem_split`).
-/

namespace DocPath

variable {d : Delimiters} {separator : Char}

/-! ### The end of a bracket -/

/-- A text, read from inside a quotation or not, in which every quotation is closed and the
closing character stands in quotations only. -/
inductive Quoted (close : Char) : Option Char → List Char → Prop
  | nil : isQuote close = false → Quoted close none []
  | plain {c text} : isQuote c = false → c ≠ close → Quoted close none text →
      Quoted close none (c :: text)
  | opening {q text} : isQuote q = true → Quoted close (some q) text → Quoted close none (q :: text)
  | inner {q c text} : c ≠ q → Quoted close (some q) text → Quoted close (some q) (c :: text)
  | closing {q text} : Quoted close none text → Quoted close (some q) (q :: text)

theorem Quoted.isQuote_close {close : Char} {quote : Option Char} {text : List Char}
    (h : Quoted close quote text) : isQuote close = false := by
  induction h with
  | nil hc => exact hc
  | plain _ _ _ ih => exact ih
  | opening _ _ ih => exact ih
  | inner _ _ ih => exact ih
  | closing _ ih => exact ih

/-- A bracket in which quotations count ends at the first closing character outside them. -/
theorem closing?_quoted_iff {close : Char} {quote : Option Char} {text inside after : List Char} :
    closing? close true quote text = some (inside, after) ↔
      text = inside ++ close :: after ∧ Quoted close quote inside := by
  constructor
  · intro h
    refine ⟨eq_append_of_closing? h, ?_⟩
    induction text generalizing quote inside with
    | nil => cases quote <;> simp [closing?] at h
    | cons c cs ih =>
      cases quote with
      | some q =>
        simp only [closing?, Option.map_eq_some_iff, Prod.mk.injEq, Prod.exists] at h
        obtain ⟨inside', after', h, rfl, rfl⟩ := h
        by_cases hq : c = q
        · subst hq
          rw [if_pos rfl] at h
          exact .closing (ih h)
        · rw [if_neg hq] at h
          exact .inner hq (ih h)
      | none =>
        simp only [closing?, Bool.true_and] at h
        split at h
        next hc =>
          simp only [Option.map_eq_some_iff, Prod.mk.injEq, Prod.exists] at h
          obtain ⟨inside', after', h, rfl, rfl⟩ := h
          exact .opening hc (ih h)
        next hc =>
          rw [Bool.not_eq_true] at hc
          split at h
          next hclose =>
            subst hclose
            simp only [Option.some.injEq, Prod.mk.injEq] at h
            obtain ⟨rfl, rfl⟩ := h
            exact .nil hc
          next hclose =>
            simp only [Option.map_eq_some_iff, Prod.mk.injEq, Prod.exists] at h
            obtain ⟨inside', after', h, rfl, rfl⟩ := h
            exact .plain hc hclose (ih h)
  · intro h
    obtain ⟨rfl, h⟩ := h
    induction h with
    | nil hc => simp [closing?, hc]
    | plain hc hclose _ ih => simp [closing?, hc, hclose, ih]
    | opening hq _ ih => simp [closing?, hq, ih]
    | inner hc _ ih => simp [closing?, hc, ih]
    | closing _ ih => simp [closing?, ih]

/-- A bracket in which quotations do not count ends at the first closing character. -/
theorem closing?_plain_iff {close : Char} {text inside after : List Char} :
    closing? close false none text = some (inside, after) ↔
      text = inside ++ close :: after ∧ close ∉ inside := by
  constructor
  · intro h
    refine ⟨eq_append_of_closing? h, ?_⟩
    induction text generalizing inside with
    | nil => simp [closing?] at h
    | cons c cs ih =>
      simp only [closing?, Bool.false_and, Bool.false_eq_true, if_false] at h
      split at h
      next =>
        simp only [Option.some.injEq, Prod.mk.injEq] at h
        rw [← h.1]
        exact List.not_mem_nil
      next hclose =>
        simp only [Option.map_eq_some_iff, Prod.mk.injEq, Prod.exists] at h
        obtain ⟨inside', after', h, rfl, rfl⟩ := h
        rw [List.mem_cons, not_or]
        exact ⟨Ne.symm hclose, ih h⟩
  · intro h
    obtain ⟨rfl, h⟩ := h
    induction inside with
    | nil => simp [closing?]
    | cons c inside ih =>
      rw [List.mem_cons, not_or] at h
      simp [closing?, Ne.symm h.1, ih h.2]

theorem closing?_eq_none_of_not_mem {close : Char} {quoted : Bool} {quote : Option Char}
    {text : List Char} (h : close ∉ text) : closing? close quoted quote text = none := by
  cases hclosing : closing? close quoted quote text with
  | none => rfl
  | some parts =>
    refine absurd ?_ h
    rw [eq_append_of_closing? hclosing]
    exact List.mem_append_right _ List.mem_cons_self

theorem closing?_eq_none_of_isQuote {close : Char} {quote : Option Char} {text : List Char}
    (h : isQuote close = true) : closing? close true quote text = none := by
  cases hclosing : closing? close true quote text with
  | none => rfl
  | some parts =>
    have hnot := (closing?_quoted_iff.1 hclosing).2.isQuote_close
    rw [h] at hnot
    cases hnot

/-- A quotation that is not closed does not let the bracket end. -/
theorem closing?_eq_none_of_quote {close q : Char} {quoted : Bool} {text : List Char}
    (h : q ∉ text) : closing? close quoted (some q) text = none := by
  induction text with
  | nil => rfl
  | cons c text ih =>
    rw [List.mem_cons, not_or] at h
    rw [closing?, if_neg (Ne.symm h.1), ih h.2]
    rfl

/-! ### Texts that a split crosses -/

/-- The scan goes over a text from one zone into another without a cut. -/
def Crosses (d : Delimiters) (separator : Char) (zone zone' : Zone) (text : List Char) : Prop :=
  ∀ rest, splitFrom d separator zone (text ++ rest) =
    (text ++ (splitFrom d separator zone' rest).1, (splitFrom d separator zone' rest).2)

/-- The scan goes over a text outside brackets without a cut, and is outside again after it. -/
def Passes (d : Delimiters) (separator : Char) (text : List Char) : Prop :=
  Crosses d separator (.outside 0) (.outside 0) text

theorem crosses_nil (zone : Zone) : Crosses d separator zone zone [] := fun _ => rfl

theorem Crosses.append {zone₁ zone₂ zone₃ : Zone} {a b : List Char}
    (ha : Crosses d separator zone₁ zone₂ a) (hb : Crosses d separator zone₂ zone₃ b) :
    Crosses d separator zone₁ zone₃ (a ++ b) := by
  intro rest
  rw [List.append_assoc, ha, hb, List.append_assoc]

theorem splitFrom_cons_of_not_cuts {zone : Zone} {c : Char} {cs : List Char}
    (h : zone.cuts d separator c = false) : splitFrom d separator zone (c :: cs) =
      (c :: (splitFrom d separator (zone.next d c) cs).1,
        (splitFrom d separator (zone.next d c) cs).2) := by
  simp only [splitFrom, h, Bool.false_eq_true, if_false]

theorem splitFrom_cons_of_cuts {zone : Zone} {c : Char} {cs : List Char}
    (h : zone.cuts d separator c = true) : splitFrom d separator zone (c :: cs) =
      ([], (splitFrom d separator (zone.next d c) cs).1 ::
        (splitFrom d separator (zone.next d c) cs).2) := by
  simp only [splitFrom, h, if_true]

theorem crosses_char (zone : Zone) (c : Char) (h : zone.cuts d separator c = false) :
    Crosses d separator zone (zone.next d c) [c] :=
  fun _ => splitFrom_cons_of_not_cuts h

theorem Crosses.cons {zone zone' : Zone} {c : Char} {text : List Char}
    (h : zone.cuts d separator c = false) (ht : Crosses d separator (zone.next d c) zone' text) :
    Crosses d separator zone zone' (c :: text) :=
  (crosses_char zone c h).append ht

/-- Inside an index, what is no bracket is crossed. -/
theorem crosses_index {depth : Nat} {text : List Char}
    (h : ∀ c ∈ text, c ≠ d.defaultOpen ∧ c ≠ d.indexOpen ∧ c ≠ d.indexClose) :
    Crosses d separator (.outside (depth + 1)) (.outside (depth + 1)) text := by
  induction text with
  | nil => exact crosses_nil _
  | cons c text ih =>
    obtain ⟨h₁, h₂, h₃⟩ := h c List.mem_cons_self
    refine Crosses.cons rfl ?_
    rw [Zone.next, if_neg h₁, if_neg h₂, if_neg h₃]
    exact ih fun x hx => h x (List.mem_cons_of_mem c hx)

/-- Where the scan stands inside a default. -/
def Zone.ofQuote (depth : Nat) : Option Char → Zone
  | none => .inDefault depth
  | some q => .inQuotes depth q

theorem crosses_indexOpen (hopen : d.indexOpen ≠ d.defaultOpen) (depth : Nat) :
    Crosses d separator (.outside depth) (.outside (depth + 1)) [d.indexOpen] := by
  have hnot : (Zone.outside depth).cuts d separator d.indexOpen = false := by
    cases depth <;> simp [Zone.cuts]
  have hchar : Crosses d separator _ _ _ := crosses_char (.outside depth) d.indexOpen hnot
  rwa [Zone.next, if_neg hopen, if_pos rfl] at hchar

theorem crosses_indexClose (hclose : d.indexClose ≠ d.defaultOpen ∧ d.indexClose ≠ d.indexOpen)
    (depth : Nat) :
    Crosses d separator (.outside (depth + 1)) (.outside depth) [d.indexClose] := by
  have hchar : Crosses d separator _ _ _ := crosses_char (.outside (depth + 1)) d.indexClose rfl
  rwa [Zone.next, if_neg hclose.1, if_neg hclose.2, if_pos rfl] at hchar

theorem crosses_defaultOpen (depth : Nat) :
    Crosses d separator (.outside depth) (.inDefault depth) [d.defaultOpen] := by
  have hnot : (Zone.outside depth).cuts d separator d.defaultOpen = false := by
    cases depth <;> simp [Zone.cuts]
  have hchar : Crosses d separator _ _ _ := crosses_char (.outside depth) d.defaultOpen hnot
  rwa [Zone.next, if_pos rfl] at hchar

/-- The inside of a default leaves the scan inside the default. -/
theorem crosses_quoted {depth : Nat} {quote : Option Char} {text : List Char}
    (h : Quoted d.defaultClose quote text) :
    Crosses d separator (Zone.ofQuote depth quote) (.inDefault depth) text := by
  induction h with
  | nil => exact crosses_nil _
  | plain hc hclose _ ih =>
    refine Crosses.cons rfl ?_
    simp only [Zone.ofQuote, Zone.next, hc, Bool.false_eq_true, if_false, if_neg hclose]
    exact ih
  | opening hq _ ih =>
    refine Crosses.cons rfl ?_
    simp only [Zone.ofQuote, Zone.next, hq, if_true]
    exact ih
  | inner hc _ ih =>
    refine Crosses.cons rfl ?_
    simp only [Zone.ofQuote, Zone.next, if_neg hc]
    exact ih
  | closing _ ih =>
    refine Crosses.cons rfl ?_
    simp only [Zone.ofQuote, Zone.next, if_true]
    exact ih

/-- A default is crossed, at whatever depth it stands. -/
theorem crosses_default (depth : Nat) {inside : List Char}
    (h : Quoted d.defaultClose none inside) : Crosses d separator (.outside depth) (.outside depth)
      (d.defaultOpen :: inside ++ [d.defaultClose]) := by
  have hout : Crosses d separator (.inDefault depth) (.outside depth) [d.defaultClose] := by
    have hchar : Crosses d separator _ _ _ := crosses_char (.inDefault depth) d.defaultClose rfl
    rw [Zone.next, h.isQuote_close] at hchar
    simpa using hchar
  exact ((crosses_defaultOpen depth).append (crosses_quoted h)).append hout

namespace Passes

theorem nil : Passes d separator [] := crosses_nil _

theorem append {a b : List Char} (ha : Passes d separator a) (hb : Passes d separator b) :
    Passes d separator (a ++ b) :=
  Crosses.append ha hb

/-- What is no opening bracket and no separator is passed. -/
theorem of_forall {text : List Char}
    (h : ∀ c ∈ text, c ≠ d.defaultOpen ∧ c ≠ d.indexOpen ∧ c ≠ separator) :
    Passes d separator text := by
  induction text with
  | nil => exact nil
  | cons c text ih =>
    obtain ⟨h₁, h₂, h₃⟩ := h c List.mem_cons_self
    refine Crosses.cons (by simp [Zone.cuts, h₃]) ?_
    -- A closing index bracket has no index to close here, so the depth stays zero.
    have hnext : (Zone.outside 0).next d c = .outside 0 := by
      rw [Zone.next, if_neg h₁, if_neg h₂]
      split <;> rfl
    rw [hnext]
    exact ih fun x hx => h x (List.mem_cons_of_mem c hx)

/-- An index is passed if its inside holds no bracket. -/
theorem index {inside : List Char} (hopen : d.indexOpen ≠ d.defaultOpen)
    (hclose : d.indexClose ≠ d.defaultOpen ∧ d.indexClose ≠ d.indexOpen)
    (h : ∀ c ∈ inside, c ≠ d.defaultOpen ∧ c ≠ d.indexOpen ∧ c ≠ d.indexClose) :
    Passes d separator (d.indexOpen :: inside ++ [d.indexClose]) :=
  ((crosses_indexOpen hopen 0).append (crosses_index h)).append (crosses_indexClose hclose 0)

/-- A default is passed. -/
theorem default {inside : List Char} (h : Quoted d.defaultClose none inside) :
    Passes d separator (d.defaultOpen :: inside ++ [d.defaultClose]) :=
  crosses_default 0 h

end Passes

/-! ### Texts without a cut -/

/-- The separator does not cut the text. -/
def Uncut (d : Delimiters) (separator : Char) (text : List Char) : Prop :=
  (split d separator text).2 = []

/-- A text without a cut is its only part. -/
theorem splitFrom_of_uncut {zone : Zone} {text : List Char}
    (h : (splitFrom d separator zone text).2 = []) :
    splitFrom d separator zone text = (text, []) := by
  have hjoin := joinParts_splitFrom d separator zone text
  rw [joinParts, h, List.flatMap_nil, List.append_nil] at hjoin
  exact Prod.ext hjoin h

theorem split_of_uncut {text : List Char} (h : Uncut d separator text) :
    split d separator text = (text, []) :=
  splitFrom_of_uncut h

/-- What follows a crossed text is cut where the scan cuts it from the zone after the text. -/
theorem Crosses.splitFrom_append_eq_nil_iff {zone zone' : Zone} {a b : List Char}
    (h : Crosses d separator zone zone' a) :
    (splitFrom d separator zone (a ++ b)).2 = [] ↔ (splitFrom d separator zone' b).2 = [] := by
  rw [h b]

theorem Crosses.splitFrom_eq_nil {zone zone' : Zone} {text : List Char}
    (h : Crosses d separator zone zone' text) : (splitFrom d separator zone text).2 = [] := by
  rw [← List.append_nil text, h.splitFrom_append_eq_nil_iff]
  rfl

theorem Passes.uncut_append_iff {a b : List Char} (h : Passes d separator a) :
    Uncut d separator (a ++ b) ↔ Uncut d separator b :=
  h.splitFrom_append_eq_nil_iff

theorem Passes.uncut {text : List Char} (h : Passes d separator text) : Uncut d separator text :=
  h.splitFrom_eq_nil

/-- A text without the separator is uncut. -/
theorem uncut_of_not_mem {text : List Char} (h : separator ∉ text) : Uncut d separator text := by
  have hjoin := join_split d separator text
  rw [Uncut]
  cases hparts : (split d separator text).2 with
  | nil => rfl
  | cons part parts =>
    refine absurd ?_ h
    rw [← hjoin, joinParts, hparts]
    simp

/-- Of a default that does not end, nothing is cut: the scan never leaves it. -/
theorem splitFrom_of_unclosed {depth : Nat} {quote : Option Char} {text : List Char}
    (h : closing? d.defaultClose true quote text = none) :
    (splitFrom d separator (Zone.ofQuote depth quote) text).2 = [] := by
  induction text generalizing quote with
  | nil => rfl
  | cons c text ih =>
    cases quote with
    | some q =>
      have hnext : (Zone.ofQuote depth (some q)).next d c =
          Zone.ofQuote depth (if c = q then none else some q) := by
        rw [Zone.ofQuote, Zone.next]
        split <;> rfl
      rw [closing?, Option.map_eq_none_iff] at h
      rw [splitFrom_cons_of_not_cuts rfl, hnext]
      exact ih h
    | none =>
      rw [splitFrom_cons_of_not_cuts rfl, Zone.ofQuote, Zone.next]
      rw [closing?, Bool.true_and] at h
      split
      next hquote =>
        rw [if_pos hquote, Option.map_eq_none_iff] at h
        exact ih h
      next hquote =>
        rw [if_neg hquote] at h
        split
        next hclose => simp [hclose] at h
        next hclose =>
          rw [if_neg hclose, Option.map_eq_none_iff] at h
          exact ih h

/-- A separator that can be told from the brackets. -/
structure Separates (d : Delimiters) (separator : Char) : Prop where
  ne_defaultOpen : separator ≠ d.defaultOpen
  ne_indexOpen : separator ≠ d.indexOpen
  ne_indexClose : separator ≠ d.indexClose

theorem Separates.cuts (h : Separates d separator) :
    (Zone.outside 0).cuts d separator separator = true := by
  simp [Zone.cuts, h.ne_defaultOpen, h.ne_indexOpen, h.ne_indexClose]

/-- At a cut the scan is outside all brackets, and stays there. -/
theorem zone_of_cuts {zone : Zone} {c : Char} (h : zone.cuts d separator c = true) :
    zone = .outside 0 ∧ zone.next d c = .outside 0 := by
  unfold Zone.cuts at h
  split at h
  next =>
    simp only [Bool.and_eq_true, bne_iff_ne, ne_eq] at h
    obtain ⟨⟨⟨h₁, h₂⟩, h₃⟩, -⟩ := h
    refine ⟨rfl, ?_⟩
    rw [Zone.next, if_neg h₁, if_neg h₂, if_neg h₃]
  next => simp at h

theorem Separates.next (h : Separates d separator) :
    (Zone.outside 0).next d separator = .outside 0 :=
  (zone_of_cuts h.cuts).2

/-- An uncut text does not begin with the separator. -/
theorem ne_of_uncut_cons (hsep : Separates d separator) {c : Char} {rest : List Char}
    (huncut : Uncut d separator (c :: rest)) : c ≠ separator := by
  intro heq
  subst heq
  rw [Uncut, split, splitFrom_cons_of_cuts hsep.cuts] at huncut
  simp at huncut

/-- An uncut text does not hold the separator before its first bracket. -/
theorem not_mem_of_uncut (hsep : Separates d separator) {text rest : List Char}
    (h : ∀ c ∈ text, c ≠ d.defaultOpen ∧ c ≠ d.indexOpen)
    (huncut : Uncut d separator (text ++ rest)) : separator ∉ text := by
  induction text with
  | nil => exact List.not_mem_nil
  | cons c text ih =>
    obtain ⟨h₁, h₂⟩ := h c List.mem_cons_self
    have hne : c ≠ separator := ne_of_uncut_cons hsep huncut
    have hpass : Passes d separator [c] :=
      Passes.of_forall fun x hx => by
        rw [List.mem_singleton.1 hx]
        exact ⟨h₁, h₂, hne⟩
    have hrest : Uncut d separator (text ++ rest) := hpass.uncut_append_iff.1 huncut
    rw [List.mem_cons, not_or]
    exact ⟨Ne.symm hne, ih (fun x hx => h x (List.mem_cons_of_mem c hx)) hrest⟩

/-! ### The parts of a split -/

theorem split_append_separator (hsep : Separates d separator) {first rest : List Char}
    (h : Passes d separator first) : split d separator (first ++ separator :: rest) =
      (first, (split d separator rest).1 :: (split d separator rest).2) := by
  rw [split, h, splitFrom_cons_of_cuts hsep.cuts, hsep.next, List.append_nil]
  rfl

theorem joinParts_cons (part next : List Char) (parts : List (List Char)) :
    joinParts separator (part, next :: parts) =
      part ++ separator :: joinParts separator (next, parts) := by
  simp [joinParts]

theorem not_cuts_of_uncut {zone : Zone} {c : Char} {cs : List Char}
    (h : (splitFrom d separator zone (c :: cs)).2 = []) :
    zone.cuts d separator c = false ∧ (splitFrom d separator (zone.next d c) cs).2 = [] := by
  cases hc : zone.cuts d separator c with
  | true =>
    rw [splitFrom, hc] at h
    simp at h
  | false =>
    rw [splitFrom_cons_of_not_cuts hc] at h
    exact ⟨rfl, h⟩

theorem uncut_parts_from {other : Char} (zone : Zone) {text : List Char}
    (h : other = separator ∨ (splitFrom d other zone text).2 = []) :
    (splitFrom d other zone (splitFrom d separator zone text).1).2 = [] ∧
      ∀ part ∈ (splitFrom d separator zone text).2, Uncut d other part := by
  induction text generalizing zone with
  | nil => exact ⟨rfl, fun part hpart => absurd hpart List.not_mem_nil⟩
  | cons c cs ih =>
    have hrest : other = separator ∨ (splitFrom d other (zone.next d c) cs).2 = [] :=
      h.imp_right fun h => (not_cuts_of_uncut h).2
    obtain ⟨hfirst, hothers⟩ := ih (zone.next d c) hrest
    cases hc : zone.cuts d separator c with
    | true =>
      obtain ⟨hzone, hnext⟩ := zone_of_cuts hc
      subst hzone
      rw [splitFrom_cons_of_cuts hc, hnext]
      rw [hnext] at hfirst hothers
      refine ⟨rfl, fun part hpart => ?_⟩
      rcases List.mem_cons.1 hpart with rfl | hpart
      · exact hfirst
      · exact hothers part hpart
    | false =>
      rw [splitFrom_cons_of_not_cuts hc]
      have hother : zone.cuts d other c = false := by
        rcases h with rfl | h
        · exact hc
        · exact (not_cuts_of_uncut h).1
      refine ⟨?_, hothers⟩
      rw [splitFrom_cons_of_not_cuts hother]
      exact hfirst

/-- The parts of a split are uncut by its separator, and by any other one that does not cut the
whole. -/
theorem uncut_of_mem_split {other : Char} {text part : List Char}
    (h : other = separator ∨ Uncut d other text)
    (hpart : part ∈ (split d separator text).1 :: (split d separator text).2) :
    Uncut d other part := by
  obtain ⟨hfirst, hothers⟩ := uncut_parts_from (.outside 0) h
  rcases List.mem_cons.1 hpart with rfl | hpart
  · exact hfirst
  · exact hothers part hpart

end DocPath
