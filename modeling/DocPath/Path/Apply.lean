import DocPath.Path.Selection

/-!
# DocPath.Path.Apply

What a single operation makes of a value. Values are held in one of two ways: shared, as a part of
the document, or owned, when an operation has made them. A shared sequence or mapping is only
looked into; an owned one is taken apart. The trail collects the captured values in order.

Operations by themselves never fail and never fan out: an index on something else than a sequence
and a key on something else than a mapping leave the value as it is.
-/

namespace DocPath

/-- A value in use. -/
inductive Held where
  /-- A part of the document. -/
  | shared (v : Value)
  /-- A value of its own. -/
  | owned (v : Value)
  deriving Repr

/-- Captured values, first capture first. -/
abbrev Trail := List Held

namespace Held

/-- The value itself. -/
def value : Held → Value
  | shared v => v
  | owned v => v

/-- Whether the value is null. -/
def isNull (h : Held) : Bool := h.value.isNull

/-- The elements of a sequence from `start` up to `stop`, held as the sequence is; of anything else
none. Of a shared sequence the slice is looked at, which has to lie inside it. An owned one is cut
down to `stop` elements, and the elements before `start`, which have to be there, are dropped. -/
def elements? (start stop : Nat) : Held → Option (List Held)
  | shared (.sequence items) =>
    if start ≤ stop ∧ stop ≤ items.length then
      some (((items.take stop).drop start).map shared)
    else none
  | owned (.sequence items) =>
    let kept := items.take stop
    if start ≤ kept.length then some ((kept.drop start).map owned) else none
  | _ => some []

/-- The elements of a sequence from `start` up to `stop`, which lie inside it. -/
def elements (start stop : Nat) (h : Held) : List Held :=
  (h.elements? start stop).getD []

/-- The entry of a mapping, null if it has none; anything else is left as it is. -/
def entry (name : String) : Held → Held
  | shared (.mapping entries) => shared ((entries.lookup name).getD .null)
  | owned (.mapping entries) =>
    match Entries.take? name entries with
    | some (v, _) => owned v
    | none => owned .null
  | h => h

end Held

/-- What an index makes of a value. -/
def Index.apply (i : Index) (h : Held) : Held :=
  match h.value with
  | .sequence items =>
    match i.select items.length with
    | .all => h
    | .element none => .shared .null
    | .element (some n) => ((h.elements n (n + 1)).getLast?).getD (.shared .null)
    | .slice start stop => .owned (.sequence ((h.elements start stop).map Held.value))
  | _ => h

/-- What a default makes of a value: its own value of null, and nothing new of all else. -/
def Default.apply (d : Default) (h : Held) : Held :=
  if h.isNull then .owned d.value else h

/-- What a step makes of a value and a trail. -/
def Step.apply (h : Held) (trail : Trail) : Step → Held × Trail
  | key name => (h.entry name, trail)
  | index i => (i.apply h, trail)
  | default d => (d.apply h, trail)
  | capture => (h, trail ++ [h])
  | divider => (h, trail)
  | anyEntry => (h, trail)

/-- What steps in order make of a value and a trail. -/
def applySteps (h : Held) (trail : Trail) : List Step → Held × Trail
  | [] => (h, trail)
  | s :: rest =>
    let (h, trail) := s.apply h trail
    applySteps h trail rest

/-- The values that alternatives give, each evaluated from the same value. The trail goes through
them in turn, so that captures of earlier ones come first. -/
def evaluate (h : Held) (trail : Trail) : List (List Step) → List Value × Trail
  | [] => ([], trail)
  | steps :: rest =>
    let (result, trail) := applySteps h trail steps
    let (results, trail) := evaluate h trail rest
    (result.value :: results, trail)

/-- What an operation makes of a value and a trail. -/
def Op.apply (h : Held) (trail : Trail) : Op → Held × Trail
  | step s => s.apply h trail
  | alternatives paths =>
    let (results, trail) := evaluate h trail paths
    (.owned (.sequence results), trail)

/-- The value and the trail after each of the operations in order. -/
def applyEach (h : Held) (trail : Trail) : List Op → List (Held × Trail)
  | [] => []
  | op :: rest =>
    let (h, trail) := op.apply h trail
    (h, trail) :: applyEach h trail rest

end DocPath
