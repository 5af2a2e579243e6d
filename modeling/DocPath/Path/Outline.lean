import DocPath.Path.Build
import DocPath.Path.Coercion
import DocPath.Path.Scan

/-!
# DocPath.Path.Outline

The outline of a text: the steps that it spells, up to its alternation, and the texts of the
alternatives. The text is split into segments, and each segment is read from left to right, one
step a turn; what its head is decides what a turn reads. An alternation takes the whole rest of the
last segment, so it is left unread, as the list of its texts.

Every turn leaves a shorter text (`length_lt_of_turn`), and the texts of alternatives are shorter
than the text of the whole path (`length_lt_of_mem_alternatives`).
-/

namespace DocPath

open DocPath.Text

/-! ### The insides of brackets -/

/-- Splits a text at the first character of a kind. -/
def cutFirst? (c : Char) (text : List Char) : Option (List Char × List Char) :=
  match text.dropWhile (· != c) with
  | [] => none
  | _ :: after => some (text.takeWhile (· != c), after)

/-- Splits a text at the last character of a kind. -/
def cutLast? (c : Char) (text : List Char) : Option (List Char × List Char) :=
  (cutFirst? c text.reverse).map fun (after, before) => (before.reverse, after.reverse)

/-- Whether a text is an integer as a bound is written: a minus sign or none, and digits. -/
def isIntegerText : List Char → Bool
  | '-' :: digits => !digits.isEmpty && digits.all Char.isDigit
  | digits => !digits.isEmpty && digits.all Char.isDigit

/-- Reads a bound, blanks around it dropped. -/
def readBound (d : Delimiters) (text : List Char) : Except Malformation Bound :=
  let text := trim text
  if text = [d.wildcard] then .ok .wildcard
  else if isIntegerText text then
    match (Numeral.readInt? 10 text).bind Numeral.int64? with
    | some n => .ok (.at n)
    | none => .error (.boundTooLarge (.ofList text))
  else .error (.notABound d.wildcard)

/-- Reads the inside of an index: one bound, or two with a range separator between them. -/
def readIndex (d : Delimiters) (inside : List Char) : Except Malformation Index :=
  match cutFirst? d.rangeSeparator inside with
  | none => (readBound d inside).map .one
  | some (start, stop) =>
    -- A third bound is the fault of the range, before any fault of its bounds.
    if stop.contains d.rangeSeparator then .error .manyBounds
    else do
      let start ← readBound d start
      let stop ← readBound d stop
      return .slice start stop

/-- Reads the inside of a default: the source of its value, the last type delimiter and the name of
its type. The fragment is the default with its brackets. -/
def readDefault (d : Delimiters) (fragment : String) (inside : List Char) :
    Except CompileError Default :=
  match cutLast? d.typeDelimiter inside with
  | none =>
    .error (.malformed fragment (.untypedDefault d.defaultOpen d.typeDelimiter d.defaultClose))
  | some (source, typeName) =>
    let source := trim source
    let typeName := String.ofList (trim typeName)
    match DefaultKind.ofName? typeName with
    | none => .error (.unknownDefaultType typeName fragment)
    | some kind =>
      match kind.coerce source with
      | .error fault => .error (.invalidLiteral kind fragment fault)
      | .ok value => .ok ⟨value, kind, .ofList source⟩

/-! ### Turns -/

/-- What a turn reads. -/
inductive Turn where
  /-- A step, and the text after it. -/
  | step (s : Step) (after : List Char)
  /-- The texts of alternatives. -/
  | alternation (parts : List (List Char))

/-- Reads a bracket and what it holds: `read` gets the bracket as text and the inside. -/
def readBracket (opening closing : Char) (quoted : Bool) (tail : List Char)
    (read : String → List Char → Except CompileError Step) : Except CompileError Turn :=
  match closing? closing quoted none tail with
  | none => .error (.malformed (.ofList (opening :: tail)) (.unclosed closing))
  | some (inside, after) =>
    match read (.ofList (opening :: inside ++ [closing])) inside with
    | .error e => .error e
    | .ok s => .ok (.step s after)

/-- Reads the step at the head of a text that does not begin with a blank. -/
def turn (d : Delimiters) (segment : List Char) (isLast : Bool) (head : Char) (tail : List Char) :
    Except CompileError Turn :=
  if head = d.contextMarker then .ok (.step .capture tail)
  else if head = d.indexOpen then
    readBracket d.indexOpen d.indexClose false tail fun fragment inside =>
      match readIndex d inside with
      | .ok i => .ok (.index i)
      | .error fault => .error (.malformed fragment fault)
  else if head = d.defaultOpen then
    readBracket d.defaultOpen d.defaultClose true tail fun fragment inside =>
      (readDefault d fragment inside).map .default
  else if head = d.anyEntryOpen then
    readBracket d.anyEntryOpen d.anyEntryClose false tail fun fragment inside =>
      if trim inside = [d.wildcard] then .ok .anyEntry
      else .error (.malformed fragment (.notAnyEntry d.anyEntryOpen d.wildcard d.anyEntryClose))
  else
    -- An alternation further on takes the whole rest, whatever the rest begins with.
    let parts := split d d.alternation (head :: tail)
    if parts.2 ≠ [] then
      if isLast then .ok (.alternation (parts.1 :: parts.2))
      else .error (.misplacedAlternation (.ofList segment))
    else if head = d.continuation ∨ head = d.segmentDivider then .ok (.step .divider tail)
    else
      let name := head :: tail.takeWhile (!d.keyEnds.contains ·)
      .ok (.step (.key (.ofList (trim name))) (tail.dropWhile (!d.keyEnds.contains ·)))

theorem length_le_of_readBracket {opening closing : Char} {quoted : Bool} {tail after : List Char}
    {read : String → List Char → Except CompileError Step} {s : Step}
    (h : readBracket opening closing quoted tail read = .ok (.step s after)) :
    after.length ≤ tail.length := by
  unfold readBracket at h
  split at h
  · simp at h
  · next inside after' hc =>
    split at h
    · simp at h
    · simp only [Except.ok.injEq, Turn.step.injEq] at h
      rw [← h.2]
      exact Nat.le_of_lt (length_closing?_lt hc)

theorem readBracket_ne_alternation {opening closing : Char} {quoted : Bool} {tail : List Char}
    {read : String → List Char → Except CompileError Step} {parts : List (List Char)} :
    readBracket opening closing quoted tail read ≠ .ok (.alternation parts) := by
  unfold readBracket
  split
  · simp
  · split <;> simp

/-- A turn that reads a step leaves a shorter text. -/
theorem length_lt_of_turn {d : Delimiters} {segment : List Char} {isLast : Bool} {head : Char}
    {tail after : List Char} {s : Step}
    (h : turn d segment isLast head tail = .ok (.step s after)) :
    after.length < (head :: tail).length := by
  suffices after.length ≤ tail.length by simp only [List.length_cons]; omega
  unfold turn at h
  split at h
  · simp only [Except.ok.injEq, Turn.step.injEq] at h
    simp [h.2]
  split at h
  · exact length_le_of_readBracket h
  split at h
  · exact length_le_of_readBracket h
  split at h
  · exact length_le_of_readBracket h
  dsimp only at h
  split at h
  · split at h <;> simp at h
  split at h
  · simp only [Except.ok.injEq, Turn.step.injEq] at h
    simp [h.2]
  · simp only [Except.ok.injEq, Turn.step.injEq] at h
    rw [← h.2]
    exact length_dropWhile_le _ _

/-- The texts of alternatives are shorter than the text they were read from. -/
theorem length_lt_of_turn_alternation {d : Delimiters} {segment : List Char} {isLast : Bool}
    {head : Char} {tail part : List Char} {parts : List (List Char)}
    (h : turn d segment isLast head tail = .ok (.alternation parts)) (hpart : part ∈ parts) :
    part.length < (head :: tail).length := by
  unfold turn at h
  split at h
  · simp at h
  split at h
  · exact absurd h readBracket_ne_alternation
  split at h
  · exact absurd h readBracket_ne_alternation
  split at h
  · exact absurd h readBracket_ne_alternation
  dsimp only at h
  split at h
  next hmany =>
    split at h
    · simp only [Except.ok.injEq, Turn.alternation.injEq] at h
      subst h
      exact length_lt_of_mem_split hmany hpart
    · simp at h
  next => split at h <;> simp at h

/-! ### Segments -/

/-- The steps that a text spells, and the texts of the alternatives at its end. -/
structure Outline where
  steps : List Step
  /-- The texts of the alternatives; there are none without an alternation. -/
  alternatives : List (List Char)

/-- Reads the rest of a segment. -/
def scanSegment (d : Delimiters) (segment : List Char) (isLast : Bool) (rest : List Char) :
    Except CompileError Outline :=
  match _h : trimStart rest with
  | [] => .ok ⟨[], []⟩
  | head :: tail =>
    match _ht : turn d segment isLast head tail with
    | .error e => .error e
    | .ok (.alternation parts) => .ok ⟨[], parts⟩
    | .ok (.step s after) =>
      match scanSegment d segment isLast after with
      | .error e => .error e
      | .ok o => .ok ⟨s :: o.steps, o.alternatives⟩
termination_by rest.length
decreasing_by
  have h₁ := length_lt_of_turn _ht
  have h₂ := length_dropWhile_le isBlank rest
  rw [← _h] at h₁
  exact Nat.lt_of_lt_of_le h₁ h₂

/-- Reads segments in order, with a divider after each but the last. -/
def scanSegments (d : Delimiters) (segment : List Char) :
    (others : List (List Char)) → Except CompileError Outline
  | [] => scanSegment d (trim segment) true (trim segment)
  | next :: others =>
    match scanSegment d (trim segment) false (trim segment) with
    | .error e => .error e
    | .ok o =>
      match scanSegments d next others with
      | .error e => .error e
      | .ok rest => .ok ⟨o.steps ++ .divider :: rest.steps, rest.alternatives⟩

/-- The outline of a text. -/
def outline (d : Delimiters) (text : List Char) : Except CompileError Outline :=
  let segments := split d d.segmentDivider text
  scanSegments d segments.1 segments.2

theorem length_lt_of_scanSegment {d : Delimiters} {segment : List Char} {isLast : Bool}
    {rest part : List Char} {o : Outline} (h : scanSegment d segment isLast rest = .ok o)
    (hpart : part ∈ o.alternatives) : part.length < rest.length := by
  fun_induction scanSegment d segment isLast rest generalizing o with
  | case1 rest hrest =>
    simp only [Except.ok.injEq] at h
    simp [← h] at hpart
  | case2 => simp at h
  | case3 rest head tail hrest parts hturn =>
    simp only [Except.ok.injEq] at h
    subst h
    have h₁ := length_lt_of_turn_alternation hturn hpart
    rw [← hrest] at h₁
    exact Nat.lt_of_lt_of_le h₁ (length_dropWhile_le _ _)
  | case4 => simp at h
  | case5 rest head tail hrest s after hturn o' ho' ih =>
    simp only [Except.ok.injEq] at h
    subst h
    have h₁ := length_lt_of_turn hturn
    rw [← hrest] at h₁
    have h₂ : part.length < after.length := ih ho' hpart
    have h₃ := length_dropWhile_le isBlank rest
    simp only [trimStart] at h₁
    omega

theorem length_lt_of_scanSegments {d : Delimiters} {bound : Nat} {segment part : List Char}
    {others : List (List Char)} {o : Outline} (h : scanSegments d segment others = .ok o)
    (hpart : part ∈ o.alternatives) (hsegment : segment.length ≤ bound)
    (hothers : ∀ s ∈ others, s.length ≤ bound) : part.length < bound := by
  induction others generalizing segment o with
  | nil =>
    exact Nat.lt_of_lt_of_le (length_lt_of_scanSegment h hpart)
      (Nat.le_trans (length_trim_le _) hsegment)
  | cons next others ih =>
    unfold scanSegments at h
    split at h
    · simp at h
    · split at h
      · simp at h
      · next rest hrest =>
        simp only [Except.ok.injEq] at h
        subst h
        exact ih hrest hpart (hothers next (by simp)) fun s hs => hothers s (by simp [hs])

/-- The texts of alternatives are shorter than the text of the whole path. -/
theorem length_lt_of_mem_alternatives {d : Delimiters} {text part : List Char} {o : Outline}
    (h : outline d text = .ok o) (hpart : part ∈ o.alternatives) : part.length < text.length := by
  obtain ⟨h₁, _, h₃⟩ := length_splitFrom d d.segmentDivider (.outside 0) text
  exact length_lt_of_scanSegments h hpart h₁ fun s hs => Nat.le_of_lt (h₃ s hs)

end DocPath
