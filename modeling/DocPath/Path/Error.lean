import DocPath.Path.Basic
import DocPath.Text.Numeral

/-!
# DocPath.Path.Error

Why a text or a list of operations is no path. Every cause carries the piece of the path at fault;
`CompileError.message` is the only place with the words.
-/

namespace DocPath

/-- What is wrong with a piece of a path that is not well formed. -/
inductive Malformation where
  /-- A bracket is not closed. -/
  | unclosed (closing : Char)
  /-- A range has more than two bounds. -/
  | manyBounds
  /-- A bound is no integer of sixty-four bits. -/
  | boundTooLarge (bound : String)
  /-- A bound is neither an integer nor the wildcard. -/
  | notABound (wildcard : Char)
  /-- A default has no type; given are the characters it is made of. -/
  | untypedDefault (opening delimiter closing : Char)
  /-- The brackets for every entry hold something else than the wildcard. -/
  | notAnyEntry (opening wildcard closing : Char)
  /-- A key is empty or has blanks at an end. -/
  | untrimmedKey
  /-- A key has a character that has a meaning of its own. -/
  | delimiterInKey (c : Char)
  deriving DecidableEq, Repr

/-- The words for what is wrong with a piece of a path. -/
def Malformation.message : Malformation → String
  | unclosed closing => "missing closing '" ++ closing.toString ++ "'"
  | manyBounds => "a range takes exactly two bounds"
  | boundTooLarge bound => "index " ++ bound ++ " is out of range"
  | notABound wildcard => "index must be an integer or '" ++ wildcard.toString ++ "'"
  | untypedDefault opening delimiter closing =>
    "default must be in the form " ++ opening.toString ++ "value" ++ delimiter.toString ++
      "type" ++ closing.toString
  | notAnyEntry opening wildcard closing =>
    "mapping wildcard must be " ++ opening.toString ++ wildcard.toString ++ closing.toString
  | untrimmedKey => "key must be non-empty without surrounding whitespace"
  | delimiterInKey c => "key cannot contain '" ++ c.toString ++ "'"

/-- What is wrong with the literal of a list or dict default. -/
inductive LiteralFault where
  /-- The text is no YAML. -/
  | unreadable
  /-- The text is YAML for a value of another kind. -/
  | otherKind (found : String)
  deriving DecidableEq, Repr

/-- Why a text or a list of operations is no path. -/
inductive CompileError where
  /-- A piece is not well formed. -/
  | malformed (fragment : String) (fault : Malformation)
  /-- An alternation comes before the last segment. -/
  | misplacedAlternation (fragment : String)
  /-- An alternative contains another alternation. -/
  | nestedAlternation (fragment : String)
  /-- An alternative contains the wildcard for every entry. -/
  | anyEntryInAlternation (fragment : String)
  /-- An alternative contains an index without bounds. -/
  | unboundedIndexInAlternation (fragment : String)
  /-- A default has a type that does not exist. -/
  | unknownDefaultType (typeName : String) (fragment : String)
  /-- A list or dict default is no literal of that kind. -/
  | invalidLiteral (kind : DefaultKind) (fragment : String) (fault : LiteralFault)
  deriving DecidableEq, Repr

namespace CompileError

/-- The piece of the path at fault. -/
def fragment : CompileError → String
  | malformed f _ => f
  | misplacedAlternation f => f
  | nestedAlternation f => f
  | anyEntryInAlternation f => f
  | unboundedIndexInAlternation f => f
  | unknownDefaultType _ f => f
  | invalidLiteral _ f _ => f

/-- The message of an error. -/
def message : CompileError → String
  | malformed f fault => "Malformed path at '" ++ f ++ "': " ++ fault.message
  | misplacedAlternation f =>
    "Alternation must be in the last segment of the path: '" ++ f ++ "'"
  | nestedAlternation f => "Alternation cannot contain another alternation: '" ++ f ++ "'"
  | anyEntryInAlternation f => "Alternation cannot contain a mapping wildcard: '" ++ f ++ "'"
  | unboundedIndexInAlternation f => "Alternation requires explicit index bounds: '" ++ f ++ "'"
  | unknownDefaultType typeName f => "Unknown default type '" ++ typeName ++ "' in '" ++ f ++ "'"
  | invalidLiteral kind f fault =>
    let reason :=
      match fault with
      | .unreadable => "<yaml>"
      | .otherKind found => "expected a " ++ kind.name ++ ", found " ++ found
    "Invalid " ++ kind.name ++ " literal in '" ++ f ++ "': " ++ reason

end CompileError

end DocPath
