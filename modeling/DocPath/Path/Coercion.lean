import DocPath.Binary64.Numeral
import DocPath.Path.Error
import DocPath.Text.Blank
import DocPath.Yaml.Reader

/-!
# DocPath.Path.Coercion

The value of a default, from its text and its type. Quotes around the text are dropped. A number
that cannot be read stays text, a bool is true exactly for `true` in letters of either case and for
`1`, and lists and dicts are literals of YAML, which have to be of that kind.
-/

namespace DocPath

open DocPath.Text

/-- The text of a default without the quotes around it: first single ones, then double ones. -/
def unquote (text : List Char) : List Char :=
  strip (· == '"') (strip (· == '\'') text)

/-- The document that a YAML text holds. -/
def Value.ofYaml? (text : List Char) : Option Value := do
  let d ← Yaml.read? text
  d.toValue.toOption

/-- Whether the text of a bool says that it is true. No letter outside ASCII has a small letter of
the word, so the letters of ASCII are enough. -/
def saysTrue (text : List Char) : Bool :=
  let word := text.map Char.toLower
  word == "true".toList || word == ['1']

/-- The value of a literal, if it is one of the wanted kind. -/
def literal (wanted : Value → Bool) (text : List Char) : Except LiteralFault Value :=
  match Value.ofYaml? text with
  | none => .error .unreadable
  | some v => if wanted v then .ok v else .error (.otherKind v.kindName)

/-- The value of a default with a type, from its text without the quotes. -/
def DefaultKind.value (kind : DefaultKind) (text : List Char) : Except LiteralFault Value :=
  match kind with
  | .int =>
    .ok (match (Numeral.readInt? 10 text).bind Numeral.int64? with
      | some n => .ofInt64 n
      | none => .string (.ofList text))
  | .float =>
    .ok (match Binary64.read? text with
      | some x => .ofFloat x
      | none => .string (.ofList text))
  | .str => .ok (.string (.ofList text))
  | .bool => .ok (.bool (saysTrue text))
  | .list => literal Value.isSequence text
  | .dict => literal Value.isMapping text

/-- The value of a default, from its text as it is written. -/
def DefaultKind.coerce (kind : DefaultKind) (source : List Char) : Except LiteralFault Value :=
  kind.value (unquote source)

end DocPath
