import DocPath.Proofs.InStep

/-!
# DocPath.Proofs.Cuts

Where a text is cut. Two scans find the end of a default, each in its own way: the reader of a
bracket and the split, which goes over the default while it looks for separators. They agree on that
end (`split_defaultOpen`), so the split of a text can be followed from default to default.

`Closes` says without a scan that a text leaves no index and no default open. A separator cuts a
text exactly where what stands before it does so (`mem_cutPlaces_iff`). The parts that the cuts
leave are not cut any further, and with the separator between them they are the text
(`split_exact`).
-/

namespace DocPath

variable {d : Delimiters} {separator : Char}

/-! ### The end of a default -/

/-- What follows a default that ends is split from the same depth on, and the default stands in
front of its first part. -/
theorem splitFrom_default (depth : Nat) {tail inside after : List Char}
    (h : closing? d.defaultClose true none tail = some (inside, after)) :
    splitFrom d separator (.outside depth) (d.defaultOpen :: tail) =
      (d.defaultOpen :: inside ++
          d.defaultClose :: (splitFrom d separator (.outside depth) after).1,
        (splitFrom d separator (.outside depth) after).2) := by
  obtain ⟨rfl, hquoted⟩ := closing?_quoted_iff.1 h
  have hcross : Crosses d separator (.outside depth) (.outside depth)
      (d.defaultOpen :: inside ++ [d.defaultClose]) := crosses_default depth hquoted
  have hafter := hcross after
  simpa only [List.cons_append, List.append_assoc, List.nil_append] using hafter

/-- A default that does not end takes the whole rest of the text. -/
theorem splitFrom_unclosed (depth : Nat) {tail : List Char}
    (h : closing? d.defaultClose true none tail = none) :
    splitFrom d separator (.outside depth) (d.defaultOpen :: tail) =
      (d.defaultOpen :: tail, []) := by
  have hopen : Crosses d separator (.outside depth) (.inDefault depth) [d.defaultOpen] :=
    crosses_defaultOpen depth
  have hrest : (splitFrom d separator (Zone.ofQuote depth none) tail).2 = [] :=
    splitFrom_of_unclosed h
  exact splitFrom_of_uncut (hopen.splitFrom_append_eq_nil_iff.2 hrest)

/-- **Both scans agree on where a default ends.** The reader of a default ends it at the first
closing character outside quotations. There the split of a text that begins with a default is
outside again: it splits what follows, and the default stands in front of the first part. Where the
reader finds no end, the text is a single part. No delimiter has to differ from another one or from
a quote for this, so it holds of validated delimiters and of both separators. -/
theorem split_defaultOpen (d : Delimiters) (separator : Char) (tail : List Char) :
    (∀ inside after, closing? d.defaultClose true none tail = some (inside, after) ↔
      tail = inside ++ d.defaultClose :: after ∧ Quoted d.defaultClose none inside) ∧
    split d separator (d.defaultOpen :: tail) =
      match closing? d.defaultClose true none tail with
      | some (inside, after) =>
        (d.defaultOpen :: inside ++ d.defaultClose :: (split d separator after).1,
          (split d separator after).2)
      | none => (d.defaultOpen :: tail, []) := by
  refine ⟨fun inside after => closing?_quoted_iff, ?_⟩
  cases h : closing? d.defaultClose true none tail with
  | none => exact splitFrom_unclosed 0 h
  | some found => exact splitFrom_default 0 h

example : split .standard '.' "<'>.:str>.a".toList = ("<'>.:str>.a".toList, []) ∧
    split .standard '.' "<'>'.:str>.a".toList = ("<'>'.:str>".toList, ["a".toList]) := by decide

/-! ### Texts that close their brackets -/

/-- Read where `depth` indexes are open, the text leaves no index and no default open. A character
that closes an index where none is open closes nothing, and a default goes up to its first closing
character outside quotations, whatever it holds. -/
inductive Closes (d : Delimiters) : Nat → List Char → Prop
  | nil : Closes d 0 []
  | plain {depth c text} : c ≠ d.defaultOpen → c ≠ d.indexOpen → c ≠ d.indexClose →
      Closes d depth text → Closes d depth (c :: text)
  | indexOpen {depth text} : Closes d (depth + 1) text → Closes d depth (d.indexOpen :: text)
  | indexClose {depth text} : Closes d (depth - 1) text → Closes d depth (d.indexClose :: text)
  | default {depth inside text} : Quoted d.defaultClose none inside → Closes d depth text →
      Closes d depth (d.defaultOpen :: inside ++ d.defaultClose :: text)

/-- Outside defaults the scan goes from depth to depth, and so do the texts that close. -/
theorem exists_next_outside (depth : Nat) {c : Char} (h : c ≠ d.defaultOpen) :
    ∃ depth', (Zone.outside depth).next d c = .outside depth' ∧
      ∀ text, Closes d depth' text → Closes d depth (c :: text) := by
  rw [Zone.next, if_neg h]
  split
  next hopen => exact ⟨depth + 1, rfl, fun text ht => hopen ▸ .indexOpen ht⟩
  next hopen =>
    split
    next hclose => exact ⟨depth - 1, rfl, fun text ht => hclose ▸ .indexClose ht⟩
    next hclose => exact ⟨depth, rfl, fun text ht => .plain h hopen hclose ht⟩

/-! ### The places of the cuts -/

variable {depth place : Nat} {text : List Char}

/-- The places at which a separator cuts a text that is scanned from a zone on. -/
def cutsFrom (d : Delimiters) (separator : Char) (zone : Zone) (text : List Char) : List Nat :=
  cutsBetween (splitFrom d separator zone text).1 (splitFrom d separator zone text).2

/-- A text is cut at its first character, or where the rest is cut from the next zone on. -/
theorem mem_cutsFrom_cons_iff {zone : Zone} {c : Char} {cs : List Char} :
    place ∈ cutsFrom d separator zone (c :: cs) ↔
      (zone.cuts d separator c = true ∧ place = 0) ∨
        ∃ p ∈ cutsFrom d separator (zone.next d c) cs, place = p + 1 := by
  cases hcuts : zone.cuts d separator c with
  | true =>
    rw [cutsFrom, splitFrom_cons_of_cuts hcuts, cutsBetween, List.mem_cons, List.mem_map]
    simp only [List.length_nil, true_and, cutsFrom, Nat.zero_add, Nat.add_comm 1, eq_comm]
  | false =>
    have hcons := cutsBetween_append [c] (splitFrom d separator (zone.next d c) cs).1
      (splitFrom d separator (zone.next d c) cs).2
    rw [List.singleton_append] at hcons
    rw [cutsFrom, splitFrom_cons_of_not_cuts hcuts, hcons, List.mem_map]
    simp only [List.length_singleton, Bool.false_eq_true, false_and, false_or, cutsFrom,
      Nat.add_comm 1, eq_comm]

theorem cutsFrom_default (depth : Nat) {tail inside after : List Char}
    (h : closing? d.defaultClose true none tail = some (inside, after)) :
    cutsFrom d separator (.outside depth) (d.defaultOpen :: tail) =
      (cutsFrom d separator (.outside depth) after).map
        ((d.defaultOpen :: inside ++ [d.defaultClose]).length + ·) := by
  rw [cutsFrom, splitFrom_default depth h, List.append_cons]
  exact cutsBetween_append ..

theorem cutsFrom_unclosed (depth : Nat) {tail : List Char}
    (h : closing? d.defaultClose true none tail = none) :
    cutsFrom d separator (.outside depth) (d.defaultOpen :: tail) = [] := by
  rw [cutsFrom, splitFrom_unclosed depth h]
  rfl

/-- A separator behind a text that closes its brackets cuts. -/
theorem Closes.mem_cutsFrom (hd : d.Legal) (hsep : Separates d separator) {before : List Char}
    (h : Closes d depth before) (after : List Char) :
    before.length ∈ cutsFrom d separator (.outside depth) (before ++ separator :: after) := by
  induction h with
  | nil => exact mem_cutsFrom_cons_iff.2 (Or.inl ⟨hsep.cuts, rfl⟩)
  | plain h₁ h₂ h₃ _ ih =>
    rw [List.cons_append, mem_cutsFrom_cons_iff, Zone.next, if_neg h₁, if_neg h₂, if_neg h₃]
    exact Or.inr ⟨_, ih, rfl⟩
  | indexOpen _ ih =>
    have hne : d.indexOpen ≠ d.defaultOpen :=
      hd.ne (r := .indexOpen) (s := .defaultOpen) (by decide)
    rw [List.cons_append, mem_cutsFrom_cons_iff, Zone.next, if_neg hne, if_pos rfl]
    exact Or.inr ⟨_, ih, rfl⟩
  | indexClose _ ih =>
    have hne : d.indexClose ≠ d.defaultOpen :=
      hd.ne (r := .indexClose) (s := .defaultOpen) (by decide)
    have hne' : d.indexClose ≠ d.indexOpen :=
      hd.ne (r := .indexClose) (s := .indexOpen) (by decide)
    rw [List.cons_append, mem_cutsFrom_cons_iff, Zone.next, if_neg hne, if_neg hne', if_pos rfl]
    exact Or.inr ⟨_, ih, rfl⟩
  | @default depth inside before hquoted _ ih =>
    have hclosing : closing? d.defaultClose true none
        (inside ++ d.defaultClose :: (before ++ separator :: after)) =
          some (inside, before ++ separator :: after) :=
      closing?_quoted_iff.2 ⟨rfl, hquoted⟩
    rw [List.append_assoc, List.cons_append, List.cons_append, cutsFrom_default depth hclosing,
      List.mem_map]
    refine ⟨before.length, ih, ?_⟩
    rw [← List.length_append, ← List.append_cons]

/-- A cut stands behind a text that closes its brackets. By induction on the length of the text: a
default is passed as a whole, and what follows it is scanned from the same depth on. -/
theorem exists_closes_of_mem_cutsFrom (h : place ∈ cutsFrom d separator (.outside depth) text) :
    ∃ before after, text = before ++ separator :: after ∧ before.length = place ∧
      Closes d depth before := by
  induction hlen : text.length using Nat.strong_induction_on generalizing depth place text with
  | _ n ih =>
    subst hlen
    cases text with
    | nil => cases h
    | cons c cs =>
      by_cases hdefault : c = d.defaultOpen
      · subst hdefault
        cases hclosing : closing? d.defaultClose true none cs with
        | none =>
          rw [cutsFrom_unclosed depth hclosing] at h
          cases h
        | some found =>
          obtain ⟨inside, rest⟩ := found
          rw [cutsFrom_default depth hclosing, List.mem_map] at h
          obtain ⟨p, hp, rfl⟩ := h
          have hlt : rest.length < (d.defaultOpen :: cs).length :=
            Nat.lt_succ_of_lt (length_closing?_lt hclosing)
          obtain ⟨before, after, rfl, rfl, hcloses⟩ := ih _ hlt hp rfl
          obtain ⟨rfl, hquoted⟩ := closing?_quoted_iff.1 hclosing
          refine ⟨d.defaultOpen :: inside ++ d.defaultClose :: before, after, ?_, ?_,
            .default hquoted hcloses⟩
          · rw [List.append_assoc, List.cons_append, List.cons_append]
          · rw [← List.length_append, ← List.append_cons]
      · obtain ⟨depth', hnext, hcons⟩ := exists_next_outside depth hdefault
        rcases mem_cutsFrom_cons_iff.1 h with ⟨hcuts, rfl⟩ | ⟨p, hp, rfl⟩
        · obtain rfl := eq_separator_of_cuts hcuts
          obtain ⟨rfl⟩ := (zone_of_cuts hcuts).1
          exact ⟨[], cs, rfl, rfl, .nil⟩
        · rw [hnext] at hp
          obtain ⟨before, after, rfl, rfl, hcloses⟩ := ih _ (Nat.lt_succ_self _) hp rfl
          exact ⟨c :: before, after, rfl, rfl, hcons before hcloses⟩

/-- A text is cut at a separator exactly if what stands before it closes its brackets. -/
theorem mem_cutPlaces_iff (hd : d.Legal) (hsep : Separates d separator) :
    place ∈ cutPlaces d separator text ↔ ∃ before after, text = before ++ separator :: after ∧
      before.length = place ∧ Closes d 0 before := by
  constructor
  · exact exists_closes_of_mem_cutsFrom
  · rintro ⟨before, after, rfl, rfl, hcloses⟩
    exact hcloses.mem_cutsFrom hd hsep after

/-! ### The parts of a text -/

theorem joinParts_eq_intercalate (parts : List Char × List (List Char)) :
    joinParts separator parts = [separator].intercalate (parts.1 :: parts.2) := by
  obtain ⟨first, others⟩ := parts
  induction others generalizing first with
  | nil => simp [joinParts]
  | cons next others ih =>
    rw [joinParts_cons, ih, List.intercalate_cons_cons, List.append_assoc, List.singleton_append]

/-- **A split loses nothing and is complete.** For the delimiters of a compiler and both of their
separators, the parts of a text with the separator between them are the text, and none of the parts
is split any further. The cuts are at exactly those separators before which every index and every
default is closed. -/
theorem split_exact (c : Compiler) {r : Role} (hr : r.splits) (text : List Char) :
    let d := c.delimiters
    let parts := (split d (d.char r) text).1 :: (split d (d.char r) text).2
    [d.char r].intercalate parts = text ∧
    (∀ part ∈ parts, split d (d.char r) part = (part, [])) ∧
    ∀ place, place ∈ cutPlaces d (d.char r) text ↔ ∃ before after,
      text = before ++ d.char r :: after ∧ before.length = place ∧ Closes d 0 before := by
  intro d parts
  have hd : d.Legal := Delimiters.legal_of_validate c.valid
  refine ⟨?_, fun part hpart => ?_, fun place => mem_cutPlaces_iff hd (hd.separates hr)⟩
  · rw [← joinParts_eq_intercalate]
    exact join_split d (d.char r) text
  · have huncut : Uncut d (d.char r) part := uncut_of_mem_split (Or.inl rfl) hpart
    exact split_of_uncut huncut

/-- An index that is closed too often, a default that quotes its closing character and a separator,
and an index that is never closed. -/
theorem split_exact_unbalanced :
    let text := "]é.a<'>.':str>.[[.].b".toList
    let parts := ["]é".toList, "a<'>.':str>".toList, "[[.].b".toList]
    Role.segmentDivider.splits ∧ ['.'].intercalate parts = text ∧
      (∀ part ∈ parts, split .standard '.' part = (part, [])) ∧
      Closes .standard 0 "]é.a<'>.':str>".toList ∧
      ¬ Closes .standard 0 "]é.a<'>.':str>.[[".toList := by
  intro text parts
  have hr : Role.segmentDivider.splits := Or.inl rfl
  have hparts : (split .standard '.' text).1 :: (split .standard '.' text).2 = parts := by decide
  obtain ⟨hjoin, halone, hcuts⟩ := split_exact .standard hr text
  refine ⟨hr, hparts ▸ hjoin, hparts ▸ halone, ?_, fun hcloses => ?_⟩
  · -- The parts are cut at the places 2 and 14.
    obtain ⟨before, after, htext, hlength, hcloses⟩ := (hcuts 14).1 (by decide)
    have hbefore : "]é.a<'>.':str>".toList = before :=
      (List.append_inj (htext : _ ++ '.' :: "[[.].b".toList = _) (by rw [hlength]; rfl)).1
    exact hbefore ▸ hcloses
  · have hcut : 17 ∈ cutPlaces .standard '.' text :=
      (hcuts 17).2 ⟨_, "].b".toList, rfl, rfl, hcloses⟩
    revert hcut
    decide

end DocPath
