/-!
# DocPath.Delimiters.Basic

The thirteen characters that give the text of a path its structure. A `Role` names what a delimiter
is for; `Delimiters` gives each role its character, and every role has a default.
-/

namespace DocPath

/-- What a delimiter is for. -/
inductive Role where
  /-- Between the segments of a path. -/
  | segmentDivider
  /-- Before a value that is to be captured. -/
  | contextMarker
  /-- Before an index or a range. -/
  | indexOpen
  /-- After an index or a range. -/
  | indexClose
  /-- Between the bounds of a range. -/
  | rangeSeparator
  /-- For the missing bound of an index, and for every entry of a mapping. -/
  | wildcard
  /-- Before a default. -/
  | defaultOpen
  /-- After a default. -/
  | defaultClose
  /-- Between the text of a default and its type. -/
  | typeDelimiter
  /-- Between alternative paths. -/
  | alternation
  /-- Between the steps of an alternative path. -/
  | continuation
  /-- Before the wildcard that stands for every entry of a mapping. -/
  | anyEntryOpen
  /-- After the wildcard that stands for every entry of a mapping. -/
  | anyEntryClose
  deriving DecidableEq, Repr

namespace Role

/-- All roles, in the order in which they are saved. -/
def all : List Role :=
  [segmentDivider, contextMarker, indexOpen, indexClose, rangeSeparator, wildcard, defaultOpen,
    defaultClose, typeDelimiter, alternation, continuation, anyEntryOpen, anyEntryClose]

/-- The roles whose characters count everywhere in the text of a path. -/
def structural : List Role :=
  [segmentDivider, contextMarker, indexOpen, indexClose, wildcard, defaultOpen, defaultClose,
    alternation, continuation, anyEntryOpen, anyEntryClose]

/-- The roles whose characters count only inside their brackets. -/
def bracketed : List Role :=
  [rangeSeparator, typeDelimiter]

/-- The name of a role in messages. -/
def label : Role → String
  | segmentDivider => "segment divider"
  | contextMarker => "context marker"
  | indexOpen => "index open"
  | indexClose => "index close"
  | rangeSeparator => "range separator"
  | wildcard => "wildcard"
  | defaultOpen => "default open"
  | defaultClose => "default close"
  | typeDelimiter => "type delimiter"
  | alternation => "alternation"
  | continuation => "alternation continuation"
  | anyEntryOpen => "dict-iter open"
  | anyEntryClose => "dict-iter close"

/-- The name of a role's field in saved delimiters. -/
def field : Role → String
  | segmentDivider => "segment_divider"
  | contextMarker => "context_marker"
  | indexOpen => "index_open"
  | indexClose => "index_close"
  | rangeSeparator => "range_separator"
  | wildcard => "wildcard"
  | defaultOpen => "default_open"
  | defaultClose => "default_close"
  | typeDelimiter => "type_delimiter"
  | alternation => "alternation"
  | continuation => "alternation_continuation"
  | anyEntryOpen => "dict_iter_open"
  | anyEntryClose => "dict_iter_close"

/-- The character that a role has by default. -/
def defaultChar : Role → Char
  | segmentDivider => '.'
  | contextMarker => '@'
  | indexOpen => '['
  | indexClose => ']'
  | rangeSeparator => ':'
  | wildcard => '*'
  | defaultOpen => '<'
  | defaultClose => '>'
  | typeDelimiter => ':'
  | alternation => '|'
  | continuation => ','
  | anyEntryOpen => '{'
  | anyEntryClose => '}'

theorem mem_all (r : Role) : r ∈ all := by
  cases r <;> decide

end Role

/-- A character for each role. -/
structure Delimiters where
  segmentDivider : Char := Role.segmentDivider.defaultChar
  contextMarker : Char := Role.contextMarker.defaultChar
  indexOpen : Char := Role.indexOpen.defaultChar
  indexClose : Char := Role.indexClose.defaultChar
  rangeSeparator : Char := Role.rangeSeparator.defaultChar
  wildcard : Char := Role.wildcard.defaultChar
  defaultOpen : Char := Role.defaultOpen.defaultChar
  defaultClose : Char := Role.defaultClose.defaultChar
  typeDelimiter : Char := Role.typeDelimiter.defaultChar
  alternation : Char := Role.alternation.defaultChar
  continuation : Char := Role.continuation.defaultChar
  anyEntryOpen : Char := Role.anyEntryOpen.defaultChar
  anyEntryClose : Char := Role.anyEntryClose.defaultChar
  deriving DecidableEq, Repr

namespace Delimiters

/-- The default delimiters. -/
def standard : Delimiters := {}

instance : Inhabited Delimiters := ⟨standard⟩

/-- The character of a role. -/
def char (d : Delimiters) : Role → Char
  | .segmentDivider => d.segmentDivider
  | .contextMarker => d.contextMarker
  | .indexOpen => d.indexOpen
  | .indexClose => d.indexClose
  | .rangeSeparator => d.rangeSeparator
  | .wildcard => d.wildcard
  | .defaultOpen => d.defaultOpen
  | .defaultClose => d.defaultClose
  | .typeDelimiter => d.typeDelimiter
  | .alternation => d.alternation
  | .continuation => d.continuation
  | .anyEntryOpen => d.anyEntryOpen
  | .anyEntryClose => d.anyEntryClose

/-- The delimiters with the characters that a function gives to the roles. -/
def ofFn (f : Role → Char) : Delimiters where
  segmentDivider := f .segmentDivider
  contextMarker := f .contextMarker
  indexOpen := f .indexOpen
  indexClose := f .indexClose
  rangeSeparator := f .rangeSeparator
  wildcard := f .wildcard
  defaultOpen := f .defaultOpen
  defaultClose := f .defaultClose
  typeDelimiter := f .typeDelimiter
  alternation := f .alternation
  continuation := f .continuation
  anyEntryOpen := f .anyEntryOpen
  anyEntryClose := f .anyEntryClose

@[simp] theorem char_ofFn (f : Role → Char) (r : Role) : (ofFn f).char r = f r := by
  cases r <;> rfl

@[simp] theorem ofFn_char (d : Delimiters) : ofFn d.char = d := rfl

end Delimiters

end DocPath
