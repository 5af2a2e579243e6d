import DocPath.Value.Basic

/-!
# DocPath.Json.Written

The compact JSON text of a document: no blanks, entries in their order. Floats that are no finite
number are written as `null`.
-/

namespace DocPath.Json

open DocPath.Text

/-- The hexadecimal digit, in small letters, for a value below sixteen. -/
def lowerHexDigit (n : Nat) : Char :=
  if n < 10 then Numeral.digit n else Char.ofNat ('a'.toNat + (n - 10))

/-- A character of a string, escaped if it has to be: quotes, backslashes and control characters. -/
def escape (c : Char) : List Char :=
  match c with
  | '"' => ['\\', '"']
  | '\\' => ['\\', '\\']
  | '\x08' => ['\\', 'b']
  | '\x0c' => ['\\', 'f']
  | '\n' => ['\\', 'n']
  | '\r' => ['\\', 'r']
  | '\t' => ['\\', 't']
  | c =>
    if c.toNat < 0x20 then
      ['\\', 'u', '0', '0', lowerHexDigit (c.toNat / 16), lowerHexDigit (c.toNat % 16)]
    else [c]

/-- A string between quotes. -/
def quote (s : String) : List Char :=
  '"' :: s.toList.flatMap escape ++ ['"']

mutual

/-- The JSON text of a document. -/
def written : Value → List Char
  | .null => "null".toList
  | .bool b => (if b then "true" else "false").toList
  | .number (.integer n) => Numeral.ofInt n.toInt
  | .number (.float x) => x.written .json
  | .string s => quote s
  | .sequence items => '[' :: writtenItems items ++ [']']
  | .mapping entries => '{' :: writtenEntries entries ++ ['}']

/-- The texts of items, with commas between them. -/
def writtenItems : List Value → List Char
  | [] => []
  | [item] => written item
  | item :: rest => written item ++ ',' :: writtenItems rest

/-- The texts of entries, with commas between them. -/
def writtenEntries : List (String × Value) → List Char
  | [] => []
  | [(key, item)] => quote key ++ ':' :: written item
  | (key, item) :: rest => quote key ++ ':' :: written item ++ ',' :: writtenEntries rest

end

end DocPath.Json
