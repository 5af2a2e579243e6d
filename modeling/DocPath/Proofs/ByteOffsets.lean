import DocPath.Proofs.Scan

/-!
# DocPath.Proofs.ByteOffsets

Texts cut at offsets. A text in memory is a string of bytes; a scan finds the offset of a character
in it and cuts the text there. Such a cut needs an offset that is not beyond the end of the text and
not inside a character, and `cutAt?` gives up at any other (`exists_cutAt?_iff`).

The functions with names in `Within?` are the two scans by offsets. They never give up, whatever
characters a text has and however it is malformed, and they find what the scans of the characters
find (`splitWithin?_eq`, `bracketWithin?_eq`).
-/

namespace DocPath

variable {d : Delimiters} {separator close : Char} {text before after : List Char} {n : Nat}

/-! ### Offsets -/

/-- The number of bytes of a text. -/
def byteSize (text : List Char) : Nat := (String.ofList text).utf8ByteSize

@[simp] theorem byteSize_nil : byteSize [] = 0 := rfl

@[simp] theorem byteSize_append (a b : List Char) :
    byteSize (a ++ b) = byteSize a + byteSize b := by
  rw [byteSize, String.ofList_append, String.utf8ByteSize_append]
  rfl

@[simp] theorem byteSize_singleton (c : Char) : byteSize [c] = c.utf8Size := by
  rw [byteSize, ← String.singleton_eq_ofList, String.utf8ByteSize_singleton]

theorem byteSize_cons (c : Char) (text : List Char) :
    byteSize (c :: text) = c.utf8Size + byteSize text := by
  rw [← List.singleton_append, byteSize_append, byteSize_singleton]

/-- Cuts a text at an offset, which has to be that of a character or of the end. -/
def cutAt? : Nat → List Char → Option (List Char × List Char)
  | 0, text => some ([], text)
  | _ + 1, [] => none
  | n + 1, c :: cs =>
    if c.utf8Size ≤ n + 1 then
      (cutAt? (n + 1 - c.utf8Size) cs).map fun (before, after) => (c :: before, after)
    else none

/-- The offset of a place between two characters is one at which the text can be cut. -/
theorem cutAt?_byteSize (before after : List Char) :
    cutAt? (byteSize before) (before ++ after) = some (before, after) := by
  induction before with
  | nil => rw [byteSize_nil, cutAt?, List.nil_append]
  | cons c before ih =>
    obtain ⟨k, hk⟩ := Nat.exists_eq_add_one_of_ne_zero (Nat.ne_of_gt c.utf8Size_pos)
    have hsize : byteSize (c :: before) = k + byteSize before + 1 := by
      rw [byteSize_cons, hk]
      omega
    have hle : c.utf8Size ≤ k + byteSize before + 1 := by omega
    have hrest : k + byteSize before + 1 - c.utf8Size = byteSize before := by omega
    rw [hsize, List.cons_append, cutAt?, if_pos hle, hrest, ih]
    rfl

theorem eq_append_of_cutAt? (h : cutAt? n text = some (before, after)) :
    text = before ++ after ∧ byteSize before = n := by
  induction text generalizing n before with
  | nil =>
    cases n with
    | zero =>
      obtain ⟨rfl, rfl⟩ := Prod.mk.inj (Option.some.inj h)
      exact ⟨rfl, rfl⟩
    | succ n => cases h
  | cons c cs ih =>
    cases n with
    | zero =>
      obtain ⟨rfl, rfl⟩ := Prod.mk.inj (Option.some.inj h)
      exact ⟨rfl, rfl⟩
    | succ n =>
      rw [cutAt?] at h
      split at h
      next hle =>
        simp only [Option.map_eq_some_iff, Prod.mk.injEq, Prod.exists] at h
        obtain ⟨before', after', hcut, rfl, rfl⟩ := h
        obtain ⟨rfl, hsize⟩ := ih hcut
        refine ⟨rfl, ?_⟩
        rw [byteSize_cons, hsize]
        omega
      next => cases h

/-- A text can be cut exactly at the offsets that are valid positions of it as a string. -/
theorem exists_cutAt?_iff :
    (∃ parts, cutAt? n text = some parts) ↔ String.Pos.Raw.IsValid (String.ofList text) ⟨n⟩ := by
  rw [String.Pos.Raw.isValid_ofList]
  constructor
  · rintro ⟨⟨before, after⟩, hcut⟩
    obtain ⟨rfl, rfl⟩ := eq_append_of_cutAt? hcut
    exact ⟨before.length, by rw [List.take_left]; rfl⟩
  · rintro ⟨i, hi⟩
    have hcut := cutAt?_byteSize (text.take i) (text.drop i)
    rw [List.take_append_drop] at hcut
    exact ⟨_, (show n = byteSize (text.take i) from hi) ▸ hcut⟩

example : cutAt? 1 "éa".toList = none := by decide

/-- The part of a text from one offset up to another. -/
def slice? (start stop : Nat) (text : List Char) : Option (List Char) := do
  let (upTo, _) ← cutAt? stop text
  let (_, part) ← cutAt? start upTo
  some part

theorem slice?_eq (before part after : List Char) :
    slice? (byteSize before) (byteSize (before ++ part)) (before ++ part ++ after) = some part := by
  rw [slice?, cutAt?_byteSize]
  show (cutAt? (byteSize before) (before ++ part) >>= fun (_, part) => some part) = _
  rw [cutAt?_byteSize]
  rfl

/-- The characters of a text, each with its offset; the first one has the given offset. -/
def charOffsets (start : Nat) : List Char → List (Nat × Char)
  | [] => []
  | c :: cs => (start, c) :: charOffsets (start + c.utf8Size) cs

/-- The offset of the first character that has a property, that of the end if there is none. -/
def offsetOf (p : Char → Bool) (text : List Char) : Nat :=
  (((charOffsets 0 text).find? (p ·.2)).map Prod.fst).getD (byteSize text)

theorem offsetOf_eq (p : Char → Bool) (text : List Char) :
    offsetOf p text = byteSize (text.takeWhile (!p ·)) := by
  suffices h : ∀ start, (((charOffsets start text).find? (p ·.2)).map Prod.fst).getD
      (start + byteSize text) = start + byteSize (text.takeWhile (!p ·)) by
    have hzero := h 0
    rwa [Nat.zero_add, Nat.zero_add] at hzero
  induction text with
  | nil => exact fun start => rfl
  | cons c cs ih =>
    intro start
    rw [charOffsets]
    by_cases hp : p c = true
    · have hfind : ∀ rest, ((start, c) :: rest).find? (p ·.2) = some (start, c) :=
        fun _ => List.find?_cons_of_pos hp
      rw [hfind, List.takeWhile_cons_of_neg (by simpa using hp)]
      rfl
    · have hfind : ∀ rest, ((start, c) :: rest).find? (p ·.2) = rest.find? (p ·.2) :=
        fun _ => List.find?_cons_of_neg hp
      rw [hfind, List.takeWhile_cons_of_pos (by simpa using hp), byteSize_cons, byteSize_cons,
        ← Nat.add_assoc, ← Nat.add_assoc]
      exact ih (start + c.utf8Size)

/-- Cut there, a text falls into what is before that character and the rest. -/
theorem cutAt?_offsetOf (p : Char → Bool) (text : List Char) :
    cutAt? (offsetOf p text) text = some (text.takeWhile (!p ·), text.dropWhile (!p ·)) := by
  have hcut := cutAt?_byteSize (text.takeWhile (!p ·)) (text.dropWhile (!p ·))
  rwa [List.takeWhile_append_dropWhile, ← offsetOf_eq] at hcut

/-- The first character of a text is cut off at its size. -/
theorem cutAt?_utf8Size (c : Char) (text : List Char) :
    cutAt? c.utf8Size (c :: text) = some ([c], text) := by
  rw [← byteSize_singleton]
  exact cutAt?_byteSize [c] text

/-! ### Splitting by offsets -/

/-- Where the split of a text stands: the parts that are cut off, the offset at which the next one
starts, and the zone of the scan. -/
structure SplitState where
  parts : List (List Char)
  start : Nat
  zone : Zone

namespace SplitState

/-- The state after a character, which is at an offset. -/
def next? (d : Delimiters) (separator : Char) (text : List Char) (s : SplitState) :
    Nat × Char → Option SplitState
  | (offset, c) =>
    if s.zone.cuts d separator c then do
      let part ← slice? s.start offset text
      some ⟨s.parts ++ [part], offset + c.utf8Size, s.zone.next d c⟩
    else some { s with zone := s.zone.next d c }

/-- The parts, with the one that goes to the end of the text. -/
def finish? (text : List Char) (s : SplitState) : Option (List (List Char)) := do
  let part ← slice? s.start (byteSize text) text
  some (s.parts ++ [part])

end SplitState

/-- The parts of a text between the separators outside indexes and defaults. -/
def splitWithin? (d : Delimiters) (separator : Char) (text : List Char) :
    Option (List (List Char)) := do
  let s ← (charOffsets 0 text).foldlM (SplitState.next? d separator text) ⟨[], 0, .outside 0⟩
  s.finish? text

/-- From where the split stands, it goes on to the parts of the rest. What was scanned and is not
cut off is the beginning of the next part. -/
theorem foldlM_next? (parts : List (List Char)) (zone : Zone) (done current rest : List Char) :
    ((charOffsets (byteSize (done ++ current)) rest).foldlM
        (SplitState.next? d separator (done ++ current ++ rest)) ⟨parts, byteSize done, zone⟩ >>=
      SplitState.finish? (done ++ current ++ rest)) =
      some (parts ++ (current ++ (splitFrom d separator zone rest).1) ::
        (splitFrom d separator zone rest).2) := by
  induction rest generalizing parts zone done current with
  | nil =>
    have hslice := slice?_eq done current []
    rw [charOffsets, splitFrom, List.append_nil, List.append_nil]
    rw [List.append_nil] at hslice
    show SplitState.finish? (done ++ current) ⟨parts, byteSize done, zone⟩ = _
    rw [SplitState.finish?, hslice]
    rfl
  | cons c cs ih =>
    have hoffset : byteSize (done ++ current) + c.utf8Size = byteSize (done ++ current ++ [c]) := by
      rw [byteSize_append (done ++ current), byteSize_singleton]
    rw [charOffsets, List.foldlM_cons, hoffset]
    cases hcuts : zone.cuts d separator c with
    | true =>
      have hnext : SplitState.next? d separator (done ++ current ++ c :: cs)
          ⟨parts, byteSize done, zone⟩ (byteSize (done ++ current), c) =
          some ⟨parts ++ [current], byteSize (done ++ current ++ [c]), zone.next d c⟩ := by
        rw [SplitState.next?, if_pos hcuts, slice?_eq, hoffset]
        rfl
      have ih := ih (parts ++ [current]) (zone.next d c) (done ++ current ++ [c]) []
      simp only [List.append_nil, List.append_assoc, List.singleton_append, List.nil_append] at ih
      rw [hnext, splitFrom_cons_of_cuts hcuts]
      simp only [List.append_nil, List.append_assoc]
      exact ih
    | false =>
      have hnext : SplitState.next? d separator (done ++ current ++ c :: cs)
          ⟨parts, byteSize done, zone⟩ (byteSize (done ++ current), c) =
          some ⟨parts, byteSize done, zone.next d c⟩ := by
        rw [SplitState.next?, hcuts]
        rfl
      have ih := ih parts (zone.next d c) done (current ++ [c])
      simp only [List.append_assoc, List.singleton_append] at ih
      rw [hnext, splitFrom_cons_of_not_cuts hcuts]
      simp only [List.append_assoc]
      exact ih

/-- The split by offsets finds the parts of the text, of which there is at least one. -/
theorem splitWithin?_eq (d : Delimiters) (separator : Char) (text : List Char) :
    splitWithin? d separator text =
      some ((split d separator text).1 :: (split d separator text).2) :=
  foldlM_next? [] (.outside 0) [] [] text

/-! ### Brackets by offsets -/

/-- The offset behind the closing character of a bracket, given the characters after the opening
one. Where quotes count, `quote` is the open one. -/
def closingEnd? (close : Char) (quoted : Bool) :
    (quote : Option Char) → List (Nat × Char) → Option Nat
  | _, [] => none
  | some q, (_, c) :: rest => closingEnd? close quoted (if c = q then none else some q) rest
  | none, (offset, c) :: rest =>
    if quoted && isQuote c then closingEnd? close quoted (some c) rest
    else if c = close then some (offset + c.utf8Size)
    else closingEnd? close quoted none rest

theorem closingEnd?_eq {quoted : Bool} {quote : Option Char} (start : Nat) :
    closingEnd? close quoted quote (charOffsets start text) =
      (closing? close quoted quote text).map fun (inside, _) =>
        start + byteSize (inside ++ [close]) := by
  induction text generalizing quote start with
  | nil => cases quote <;> rfl
  | cons c cs ih =>
    have hoffset : ∀ inside : List Char, start + c.utf8Size + byteSize (inside ++ [close]) =
        start + byteSize (c :: inside ++ [close]) := by
      intro inside
      rw [List.cons_append, byteSize_cons, Nat.add_assoc]
    -- A character that does not close the bracket goes to the inside, whatever its meaning.
    have hmore : ∀ quote : Option Char,
        closingEnd? close quoted quote (charOffsets (start + c.utf8Size) cs) =
          ((closing? close quoted quote cs).map fun (inside, after) => (c :: inside, after)).map
            fun (inside, _) => start + byteSize (inside ++ [close]) := by
      intro quote
      rw [ih, Option.map_map]
      exact congrArg (Option.map · _) (funext fun found => hoffset found.1)
    cases quote with
    | some q => exact hmore _
    | none =>
      rw [charOffsets, closingEnd?, closing?]
      by_cases hquote : (quoted && isQuote c) = true
      · rw [if_pos hquote, if_pos hquote]
        exact hmore _
      · rw [if_neg hquote, if_neg hquote]
        by_cases hclose : c = close
        · rw [if_pos hclose, if_pos hclose, hclose]
          show some (start + close.utf8Size) = some (start + byteSize ([] ++ [close]))
          rw [List.nil_append, byteSize_singleton]
        · rw [if_neg hclose, if_neg hclose]
          exact hmore _

/-- A bracket, which a text begins with, and the text behind it; none if it is not closed. -/
def bracketWithin? (close : Char) (quoted : Bool) (text : List Char) :
    Option (Option (List Char × List Char)) :=
  match closingEnd? close quoted none (charOffsets 0 text).tail with
  | none => some none
  | some offset => (cutAt? offset text).map some

theorem bracketWithin?_eq (quoted : Bool) (opening : Char) (tail : List Char) :
    bracketWithin? close quoted (opening :: tail) =
      some ((closing? close quoted none tail).map fun (inside, after) =>
        (opening :: inside ++ [close], after)) := by
  rw [bracketWithin?, charOffsets, List.tail_cons, closingEnd?_eq]
  cases h : closing? close quoted none tail with
  | none => rfl
  | some found =>
    obtain ⟨inside, after⟩ := found
    have htext : opening :: tail = (opening :: inside ++ [close]) ++ after := by
      rw [eq_append_of_closing? h]
      simp
    have hoffset : 0 + opening.utf8Size + byteSize (inside ++ [close]) =
        byteSize (opening :: inside ++ [close]) := by
      rw [List.cons_append, byteSize_cons, Nat.zero_add]
    show (cutAt? (0 + opening.utf8Size + byteSize (inside ++ [close])) _).map some = _
    rw [hoffset, htext, cutAt?_byteSize]
    rfl

end DocPath
