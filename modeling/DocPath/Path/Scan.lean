import DocPath.Delimiters.Basic

/-!
# DocPath.Path.Scan

Two scans of the text of a path. `split` cuts a text at a separator wherever the separator is
neither inside an index nor inside a default; `closing?` finds the end of a bracket. Both know that
a closing character between quotes does not close a default.

The parts of a split are never an empty list, so a split gives its first part and the others. The
parts joined by the separator are the text again (`join_split`), and with two parts or more each is
shorter than the text (`length_lt_of_mem_split`).
-/

namespace DocPath

/-- Whether the character opens and closes a quotation inside a default. -/
def isQuote (c : Char) : Bool :=
  c == '\'' || c == '"'

/-! ### Splitting -/

/-- Where the scan of a text stands; `depth` counts the open indexes. -/
inductive Zone where
  | outside (depth : Nat)
  | inDefault (depth : Nat)
  | inQuotes (depth : Nat) (quote : Char)
  deriving DecidableEq, Repr

namespace Zone

/-- Where the scan stands after a character. -/
def next (d : Delimiters) : Zone → Char → Zone
  | inQuotes depth quote, c => if c = quote then inDefault depth else inQuotes depth quote
  | inDefault depth, c =>
    if isQuote c then inQuotes depth c
    else if c = d.defaultClose then outside depth
    else inDefault depth
  | outside depth, c =>
    if c = d.defaultOpen then inDefault depth
    else if c = d.indexOpen then outside (depth + 1)
    else if c = d.indexClose then outside (depth - 1)
    else outside depth

/-- Whether the text is cut at a character. -/
def cuts (d : Delimiters) (separator : Char) : Zone → Char → Bool
  | outside 0, c =>
    c != d.defaultOpen && c != d.indexOpen && c != d.indexClose && c == separator
  | _, _ => false

end Zone

/-- The parts of a text, scanned from a zone on: the first, and the others. -/
def splitFrom (d : Delimiters) (separator : Char) :
    Zone → List Char → List Char × List (List Char)
  | _, [] => ([], [])
  | zone, c :: cs =>
    let (first, others) := splitFrom d separator (zone.next d c) cs
    if zone.cuts d separator c then ([], first :: others) else (c :: first, others)

/-- The parts of a text between the separators outside indexes and defaults. -/
def split (d : Delimiters) (separator : Char) (text : List Char) :
    List Char × List (List Char) :=
  splitFrom d separator (.outside 0) text

/-- The text of parts with a separator between them. -/
def joinParts (separator : Char) (parts : List Char × List (List Char)) : List Char :=
  parts.1 ++ parts.2.flatMap (separator :: ·)

theorem eq_separator_of_cuts {d : Delimiters} {separator c : Char} {zone : Zone}
    (h : zone.cuts d separator c = true) : c = separator := by
  unfold Zone.cuts at h
  split at h
  · simp_all
  · simp at h

theorem joinParts_splitFrom (d : Delimiters) (separator : Char) (zone : Zone) (text : List Char) :
    joinParts separator (splitFrom d separator zone text) = text := by
  induction text generalizing zone with
  | nil => rfl
  | cons c cs ih =>
    have ih := ih (zone.next d c)
    simp only [splitFrom, joinParts] at ih ⊢
    split
    next h =>
      obtain rfl := eq_separator_of_cuts h
      simp [ih]
    next => simp [ih]

/-- The parts of a text with the separator between them are the text. -/
theorem join_split (d : Delimiters) (separator : Char) (text : List Char) :
    joinParts separator (split d separator text) = text :=
  joinParts_splitFrom d separator _ text

/-- The first part of a text is no longer than the text, and shorter if there are others. The
others are all shorter. -/
theorem length_splitFrom (d : Delimiters) (separator : Char) (zone : Zone) (text : List Char) :
    let parts := splitFrom d separator zone text
    parts.1.length ≤ text.length ∧ (parts.2 ≠ [] → parts.1.length < text.length) ∧
      ∀ part ∈ parts.2, part.length < text.length := by
  induction text generalizing zone with
  | nil => simp [splitFrom]
  | cons c cs ih =>
    obtain ⟨h₁, h₂, h₃⟩ := ih (zone.next d c)
    simp only [splitFrom]
    split
    · refine ⟨by simp, by simp, fun part hpart => ?_⟩
      rcases List.mem_cons.1 hpart with rfl | hpart
      · simpa [Nat.lt_succ_iff] using h₁
      · exact Nat.lt_succ_of_lt (h₃ part hpart)
    · refine ⟨by simpa using h₁, fun hne => by simpa using h₂ hne, fun part hpart => ?_⟩
      exact Nat.lt_succ_of_lt (h₃ part hpart)

/-- If a text has two parts or more, every part is shorter than it. -/
theorem length_lt_of_mem_split {d : Delimiters} {separator : Char} {text part : List Char}
    (hmany : (split d separator text).2 ≠ [])
    (hmem : part ∈ (split d separator text).1 :: (split d separator text).2) :
    part.length < text.length := by
  obtain ⟨_, h₂, h₃⟩ := length_splitFrom d separator (.outside 0) text
  rcases List.mem_cons.1 hmem with rfl | hmem
  · exact h₂ hmany
  · exact h₃ part hmem

/-! ### Brackets -/

/-- The inside of a bracket and what follows its closing character, given the text after the
opening character. Where quotes count, `quote` is the open one. -/
def closing? (close : Char) (quoted : Bool) :
    (quote : Option Char) → List Char → Option (List Char × List Char)
  | _, [] => none
  | some q, c :: cs =>
    (closing? close quoted (if c = q then none else some q) cs).map fun (inside, after) =>
      (c :: inside, after)
  | none, c :: cs =>
    if quoted && isQuote c then
      (closing? close quoted (some c) cs).map fun (inside, after) => (c :: inside, after)
    else if c = close then some ([], cs)
    else (closing? close quoted none cs).map fun (inside, after) => (c :: inside, after)

/-- The inside, the closing character and the rest make up the text. -/
theorem eq_append_of_closing? {close : Char} {quoted : Bool} {quote : Option Char}
    {text inside after : List Char} (h : closing? close quoted quote text = some (inside, after)) :
    text = inside ++ close :: after := by
  induction text generalizing quote inside with
  | nil => cases quote <;> simp [closing?] at h
  | cons c cs ih =>
    cases quote with
    | some q =>
      simp only [closing?, Option.map_eq_some_iff, Prod.mk.injEq, Prod.exists] at h
      obtain ⟨inside', after', h, rfl, rfl⟩ := h
      simp [ih h]
    | none =>
      simp only [closing?] at h
      split at h
      · simp only [Option.map_eq_some_iff, Prod.mk.injEq, Prod.exists] at h
        obtain ⟨inside', after', h, rfl, rfl⟩ := h
        simp [ih h]
      · split at h
        · simp_all
        · simp only [Option.map_eq_some_iff, Prod.mk.injEq, Prod.exists] at h
          obtain ⟨inside', after', h, rfl, rfl⟩ := h
          simp [ih h]

/-- What follows a bracket is shorter than the text after its opening character. -/
theorem length_closing?_lt {close : Char} {quoted : Bool} {quote : Option Char}
    {text inside after : List Char} (h : closing? close quoted quote text = some (inside, after)) :
    after.length < text.length := by
  rw [eq_append_of_closing? h]
  simp only [List.length_append, List.length_cons]
  omega

end DocPath
