import DocPath.Yaml.Event
import DocPath.Yaml.Plain

/-!
# DocPath.Yaml.Reader

Reading of YAML text. The events of the only document are bound: each anchor gets a number and each
alias the number of its anchor. A node is then read from the events, an alias by reading the events
of its anchor in its place. How deep collections nest and how many aliases are read are limited.
-/

namespace DocPath.Yaml

/-! ### Anchors -/

/-- The number of the next anchor: the number of names so far. A name that comes again does not
count twice, so two anchors may have one number; the later one keeps it. -/
def nextNumber (names : Entries Nat) : Nat := names.length

/-- The event with its alias numbered. -/
def Event.bind? (names : Entries Nat) : Event String → Option (Event Nat)
  | .alias name => (names.lookup name).map .alias
  | .scalar anchor tag isPlain text => some (.scalar anchor tag isPlain text)
  | .sequenceStart anchor tag => some (.sequenceStart anchor tag)
  | .sequenceEnd => some .sequenceEnd
  | .mappingStart anchor tag => some (.mappingStart anchor tag)
  | .mappingEnd => some .mappingEnd

/-- The anchor of an event. -/
def Event.anchor? : Event Ref → Option String
  | .scalar anchor _ _ _ => anchor
  | .sequenceStart anchor _ => anchor
  | .mappingStart anchor _ => anchor
  | _ => none

/-- Numbers the aliases of events, given the names so far and the position of the first event: the
events, and the positions of the numbered anchors, last first. -/
def bindEvents? (names : Entries Nat) (position : Nat) (targets : List (Nat × Nat)) :
    List (Event String) → Option (List (Event Nat) × List (Nat × Nat))
  | [] => some ([], targets)
  | e :: rest => do
    let bound ← e.bind? names
    let (names, targets) :=
      match e.anchor? with
      | none => (names, targets)
      | some a => (names.put a (nextNumber names), (nextNumber names, position) :: targets)
    let (events, targets) ← bindEvents? names (position + 1) targets rest
    return (bound :: events, targets)

/-- A document with its aliases numbered. -/
structure Document where
  events : List (Event Nat)
  /-- The positions of the anchors, last first. -/
  targets : List (Nat × Nat)

/-- The events from the anchor with a number on. -/
def Document.target? (doc : Document) (number : Nat) : Option (List (Event Nat)) :=
  (doc.targets.lookup number).map doc.events.drop

/-! ### Nodes -/

/-- A reader of nodes. It counts down the aliases that may still be read. -/
abbrev DatumReader := Nat → List (Event Nat) → Option (Datum × Nat × List (Event Nat))

/-- Reads the items of a sequence up to its end. -/
def items? (datum? : DatumReader) (aliases : Nat) (events : List (Event Nat)) :
    Option (List Datum × Nat × List (Event Nat)) :=
  match events with
  | .sequenceEnd :: rest => some ([], aliases, rest)
  | events =>
    match datum? aliases events with
    | none => none
    | some (item, aliases, after) =>
      if _h : after.length < events.length then
        (items? datum? aliases after).map fun (items, aliases, after) =>
          (item :: items, aliases, after)
      else none
termination_by events.length

/-- Reads the entries of a mapping up to its end. -/
def entries? (datum? : DatumReader) (aliases : Nat) (events : List (Event Nat)) :
    Option (List (Datum × Datum) × Nat × List (Event Nat)) :=
  match events with
  | .mappingEnd :: rest => some ([], aliases, rest)
  | events =>
    match datum? aliases events with
    | none => none
    | some (key, aliases, afterKey) =>
      match datum? aliases afterKey with
      | none => none
      | some (item, aliases, after) =>
        if _h : after.length < events.length then
          (entries? datum? aliases after).map fun (entries, aliases, after) =>
            ((key, item) :: entries, aliases, after)
        else none
termination_by events.length

/-- Reads a node. -/
def datum? (doc : Document) (depth : Nat) (aliases : Nat) (events : List (Event Nat)) :
    Option (Datum × Nat × List (Event Nat)) :=
  let content (aliases : Nat) (events : List (Event Nat)) :
      Option (Datum × Nat × List (Event Nat)) :=
    match events, depth with
    | .scalar _ tag isPlain text :: rest, _ =>
      (scalarDatum? tag isPlain text).map fun d => (d, aliases, rest)
    | .sequenceStart _ tag :: rest, depth + 1 =>
      (items? (datum? doc depth) aliases rest).map fun (items, aliases, after) =>
        (underTag tag (.sequence items), aliases, after)
    | .mappingStart _ tag :: rest, depth + 1 =>
      (entries? (datum? doc depth) aliases rest).map fun (entries, aliases, after) =>
        (underTag tag (.mapping entries), aliases, after)
    | _, _ => none
  -- An alias does not give back depth, so an alias inside its own anchor ends too.
  match events, aliases with
  | .alias _ :: _, 0 => none
  | .alias number :: rest, aliases + 1 =>
    match doc.target? number with
    | none => none
    | some target => (content aliases target).map fun (d, aliases, _) => (d, aliases, rest)
  | events, aliases => content aliases events

/-- The number of aliases that may be read for each event of a document. -/
def aliasesPerEvent : Nat := 100

/-- Reads a whole text. A text without a document is an absent value. -/
def read? (text : List Char) : Option Datum := do
  let events ← events? text
  if events.isEmpty then return .absent
  let (events, targets) ← bindEvents? [] 0 [] events
  let (d, _, _) ← datum? ⟨events, targets⟩ nestingLimit (aliasesPerEvent * events.length) events
  return d

end DocPath.Yaml
