import DocPath.Path.Compile
import DocPath.Proofs.Blanks
import DocPath.Proofs.Scan

/-!
# DocPath.Proofs.Grammar

The **grammar** of paths, as relations between texts and what they spell, said without any scan or
split. A text is cut by blanks into tokens, one for each step; segments stand one after the other
with the segment divider between them; the last segment may end in an alternation, whose texts are
divided by the alternation delimiter.

The relations go up one level at a time: `SpellsBound`, `SpellsIndex` and `SpellsDefault` for the
insides of brackets, `SpellsStep` for one token, `SpellsSteps` for a text of tokens,
`SpellsAlternatives` for the texts of an alternation, and `Spells` for a whole path.
-/

namespace DocPath

open DocPath.Text

/-! ### The insides of brackets -/

/-- A text of one digit or more. -/
structure Digits (text : List Char) : Prop where
  ne_nil : text ≠ []
  isDigit : ∀ c ∈ text, c.isDigit = true

/-- Texts of a bound: the wildcard, or digits with a minus sign or none before them. -/
inductive SpellsBound (d : Delimiters) : List Char → Bound → Prop
  | wildcard : SpellsBound d [d.wildcard] .wildcard
  | positive {digits : List Char} {n : Int64} : Digits digits →
      n.toInt = Numeral.value 10 digits → SpellsBound d digits (.at n)
  | negative {digits : List Char} {n : Int64} : Digits digits →
      n.toInt = -(Numeral.value 10 digits : Int) → SpellsBound d ('-' :: digits) (.at n)

/-- Texts between the brackets of an index: one bound, or two with the range separator between
them, blanks around each. -/
inductive SpellsIndex (d : Delimiters) : List Char → Index → Prop
  | one {core inside : List Char} {b : Bound} : SpellsBound d core b → Padded core inside →
      SpellsIndex d inside (.one b)
  | slice {core core' start stop : List Char} {b b' : Bound} :
      SpellsBound d core b → Padded core start → SpellsBound d core' b' → Padded core' stop →
      SpellsIndex d (start ++ d.rangeSeparator :: stop) (.slice b b')

/-- Texts between the brackets of a default: a source and the name of a type, with the type
delimiter between them and blanks around each. -/
inductive SpellsDefault (d : Delimiters) : List Char → Default → Prop
  | mk {source left right : List Char} {kind : DefaultKind} {value : Value} :
      trim source = source → Padded source left → Padded kind.name.toList right →
      kind.coerce source = .ok value →
      SpellsDefault d (left ++ d.typeDelimiter :: right) ⟨value, kind, .ofList source⟩

/-! ### Tokens -/

/-- The names of keys: not empty, without blanks at the ends, and free of the delimiters that end a
key. -/
structure KeyName (d : Delimiters) (name : List Char) : Prop where
  ne_nil : name ≠ []
  trimmed : trim name = name
  not_stop : ∀ c ∈ name, c ∉ d.keyStops

theorem keyName_singleton {d : Delimiters} {c : Char} (hblank : isBlank c = false)
    (hstop : c ∉ d.keyStops) : KeyName d [c] :=
  ⟨List.cons_ne_nil _ _, trim_of_forall (List.forall_mem_singleton.2 hblank),
    List.forall_mem_singleton.2 hstop⟩

/-- Texts of a single step. The divider of a segment is no token here: it is the one that `Spells`
puts between segments. -/
inductive SpellsStep (d : Delimiters) : List Char → Step → Prop
  | capture : SpellsStep d [d.contextMarker] .capture
  | index {inside : List Char} {i : Index} : SpellsIndex d inside i → d.indexClose ∉ inside →
      SpellsStep d (d.indexOpen :: inside ++ [d.indexClose]) (.index i)
  /-- Every quotation in the brackets is closed, and the closing bracket stands in quotations
  only. -/
  | default {inside : List Char} {v : Default} : SpellsDefault d inside v →
      Quoted d.defaultClose none inside →
      SpellsStep d (d.defaultOpen :: inside ++ [d.defaultClose]) (.default v)
  | anyEntry {inside : List Char} : Padded [d.wildcard] inside →
      SpellsStep d (d.anyEntryOpen :: inside ++ [d.anyEntryClose]) .anyEntry
  | divider : SpellsStep d [d.continuation] .divider
  | key {name : List Char} : KeyName d name → SpellsStep d name (.key (.ofList name))

/-- What may follow the text of a key for the key to be as long as it can be: after blanks, the end
or a delimiter that ends keys. -/
def EndsKey (d : Delimiters) (after : List Char) : Prop :=
  ∀ c rest, trimStart after = c :: rest → c ∈ d.keyStops

/-- Texts of steps: tokens in order, with blanks before, between and after them. -/
inductive SpellsSteps (d : Delimiters) : List Char → List Step → Prop
  | nil {text : List Char} : Blank text → SpellsSteps d text []
  | cons {blanks token after : List Char} {s : Step} {steps : List Step} :
      Blank blanks → SpellsStep d token s → (s.isKey = true → EndsKey d after) →
      SpellsSteps d after steps → SpellsSteps d (blanks ++ token ++ after) (s :: steps)

/-- A token alone is a text of its step. -/
theorem SpellsStep.spellsSteps {d : Delimiters} {token : List Char} {s : Step}
    (h : SpellsStep d token s) : SpellsSteps d token [s] := by
  have hsteps : SpellsSteps d ([] ++ token ++ []) [s] :=
    .cons blank_nil h (fun _ => nofun) (.nil blank_nil)
  rwa [List.nil_append, List.append_nil] at hsteps

/-! ### Alternations -/

/-- Whether the step can stand before an alternation in the same segment. -/
def Step.mayLead : Step → Bool
  | capture => true
  | index _ => true
  | default _ => true
  | anyEntry => true
  | divider => false
  | key _ => false

theorem Step.isKey_of_mayLead {s : Step} (h : s.mayLead = true) : s.isKey = false := by
  cases s <;> first | rfl | simp [mayLead] at h

/-- Texts that begin with steps which can stand before an alternation, and go on with a body. -/
inductive SpellsLead (d : Delimiters) (body : List Char) : List Char → List Step → Prop
  | nil {blanks : List Char} : Blank blanks → SpellsLead d body (blanks ++ body) []
  | cons {blanks token after : List Char} {s : Step} {steps : List Step} :
      Blank blanks → SpellsStep d token s → s.mayLead = true →
      SpellsLead d body after steps → SpellsLead d body (blanks ++ token ++ after) (s :: steps)

/-- Texts of alternatives, one or more, with the alternation between them. -/
inductive SpellsAlternatives (d : Delimiters) : List Char → List (List Step) → Prop
  | last {text : List Char} {steps : List Step} : SpellsSteps d text steps →
      SpellsAlternatives d text [steps]
  | cons {first rest : List Char} {steps : List Step} {paths : List (List Step)} :
      SpellsSteps d first steps → SpellsAlternatives d rest paths →
      SpellsAlternatives d (first ++ d.alternation :: rest) (steps :: paths)

/-- Whether the first step of the path, if any, has to stand inside the alternation. -/
def StartsInside (path : List Step) : Prop :=
  ∀ s ∈ path.head?, s.mayLead = false

/-! ### Whole paths -/

/-- Texts of operations. -/
inductive Spells (d : Delimiters) : List Char → List Op → Prop
  /-- A last segment without an alternation. -/
  | steps {text : List Char} {steps : List Step} : SpellsSteps d text steps →
      Spells d text (steps.map .step)
  /-- A last segment with an alternation of two paths or more. The first path does not begin with a
  step that could stand before the alternation, for it would be read there. -/
  | alternation {text body : List Char} {lead path : List Step} {paths : List (List Step)} :
      SpellsLead d body text lead → SpellsAlternatives d body (path :: paths) → paths ≠ [] →
      StartsInside path →
      Spells d text (lead.map .step ++ [.alternatives (path :: paths)])
  /-- A segment, its divider, and the segments after it. -/
  | segment {first rest : List Char} {steps : List Step} {ops : List Op} :
      SpellsSteps d first steps → Spells d rest ops →
      Spells d (first ++ d.segmentDivider :: rest) (steps.map .step ++ .divider :: ops)

/-! ### Values of alternatives -/

/-- Whether the step gives exactly one value inside an alternative. -/
def Step.isSingle : Step → Bool
  | index i => i.isBounded
  | anyEntry => false
  | _ => true

/-- In an alternation, every step gives exactly one value. -/
def Op.Single : Op → Prop
  | step _ => True
  | alternatives paths => ∀ path ∈ paths, ∀ s ∈ path, s.isSingle = true

theorem single_steps (steps : List Step) : ∀ op ∈ steps.map Op.step, op.Single := by
  intro op hop
  obtain ⟨s, -, rfl⟩ := List.mem_map.1 hop
  trivial

end DocPath
