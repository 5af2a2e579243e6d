import DocPath.Delimiters.Validation
import DocPath.Toml.Reader

/-!
# DocPath.Delimiters.Toml

Delimiters as TOML text: a line for each role, its field and its character as a string. A saved
character stands in a string that reads back as it. When delimiters are loaded, a missing field has
its default and unknown fields are ignored.
-/

namespace DocPath

open DocPath.Text

namespace Delimiters

/-! ### Saving -/

/-- The letter by which a control character is written, for those that have one. -/
def escapeLetter? : Char → Option Char
  | '\x08' => some 'b'
  | '\t' => some 't'
  | '\x0c' => some 'f'
  | '\r' => some 'r'
  | _ => none

/-- A character inside a basic string: a control character by its letter, or else by its number. -/
def escapeForToml (c : Char) : List Char :=
  match escapeLetter? c with
  | some letter => ['\\', letter]
  | none =>
    if c.toNat < 0x20 ∨ c.toNat = 0x7F then '\\' :: 'u' :: Numeral.hex 4 c.toNat
    else [c]

/-- A string that holds one character: of several lines for a line break, without escapes for a
double quote and a backslash, a basic one for all else. -/
def quoteForToml (c : Char) : List Char :=
  if c = '\n' then ['"', '"', '"', '\n', '\n', '"', '"', '"']
  else if c = '"' ∨ c = '\\' then ['\'', c, '\'']
  else '"' :: escapeForToml c ++ ['"']

/-- The line of a role, with its line break. -/
def tomlLine (d : Delimiters) (r : Role) : List Char :=
  r.field.toList ++ ' ' :: '=' :: ' ' :: quoteForToml (d.char r) ++ ['\n']

/-- The lines of some roles. -/
def tomlLines (d : Delimiters) (roles : List Role) : List Char :=
  roles.flatMap d.tomlLine

/-- The TOML text of delimiters: all roles in order. -/
def toToml (d : Delimiters) : String :=
  .ofList (d.tomlLines Role.all)

/-! ### Loading -/

/-- Why a TOML text gives no delimiters. -/
inductive LoadError where
  /-- The text is no TOML, or a field is no single character. -/
  | malformed
  /-- The delimiters cannot be told apart. -/
  | invalid (e : DelimiterError)
  deriving DecidableEq, Repr

/-- The message of a failed loading. -/
def LoadError.message : LoadError → String
  | malformed => "Failed to parse syntax TOML"
  | invalid e => e.message

/-- The character that an item gives: a text of exactly one. -/
def charOf? : Toml.Item → Option Char
  | .text s =>
    match s.toList with
    | [c] => some c
    | _ => none
  | _ => none

/-- The character that entries give a role. -/
def roleChar? (entries : Entries Toml.Item) (r : Role) : Option Char :=
  match entries.lookup r.field with
  | none => some r.defaultChar
  | some item => charOf? item

/-- The delimiters that entries give, checked or not. -/
def ofEntries? (entries : Entries Toml.Item) : Option Delimiters :=
  if Role.all.all fun r => (roleChar? entries r).isSome then
    some (ofFn fun r => (roleChar? entries r).getD r.defaultChar)
  else none

/-- The delimiters that a TOML text gives, if they can be told apart. -/
def ofToml? (text : String) : Except LoadError Delimiters :=
  match (Toml.read? text.toList).bind ofEntries? with
  | none => .error .malformed
  | some d =>
    match d.validate with
    | .error e => .error (.invalid e)
    | .ok () => .ok d

end Delimiters

end DocPath
