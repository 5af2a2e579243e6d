import DocPath.Toml.Scalar

/-!
# DocPath.Toml.Reader

Reading of TOML documents, line by line. A line is blank, or holds a comment, a table header, or a
key with its value. Values nest by arrays and inline tables, to a fixed depth; the reader of nested
values is a parameter of the readers of those two.
-/

namespace DocPath.Toml

/-- The number of parts of a key, and of brackets around a value, that are too many. -/
def nestingLimit : Nat := 80

/-! ### Keys -/

/-- The characters of a key without quotes. -/
def isBare (c : Char) : Bool :=
  c.isAlphanum || c == '-' || c == '_'

/-- Reads one part of a key. -/
def keyPart? (text : List Char) : Option (List Char × List Char) :=
  match text with
  | '"' :: _ => lineKey? text
  | '\'' :: _ => lineKey? text
  | _ =>
    let part := text.takeWhile isBare
    if part.isEmpty then none else some (part, text.dropWhile isBare)

/-- Reads the parts of a key, with dots between them and blanks around them. -/
def keyParts? (text : List Char) : Option (List String × List Char) :=
  match keyPart? (skipWs text) with
  | none => none
  | some (part, after) =>
    match skip? '.' (skipWs after) with
    | none => some ([.ofList part], skipWs after)
    | some rest =>
      if _h : rest.length < text.length then
        (keyParts? rest).map fun (parts, after) => (.ofList part :: parts, after)
      else none
termination_by text.length

/-- Reads a key: the parts before the last one, the last one, and what follows. -/
def key? (text : List Char) : Option (List String × String × List Char) :=
  match keyParts? text with
  | none => none
  | some (parts, after) =>
    if nestingLimit ≤ parts.length then none
    else parts.getLast?.map fun last => (parts.dropLast, last, after)

/-! ### Values -/

/-- Skips blanks, line breaks and comments with their line breaks. -/
def skipLines (text : List Char) : List Char :=
  let text' := skipComment (skipWs text)
  match newline? text' with
  | none => skipWs text
  | some rest => if _h : rest.length < text.length then skipLines rest else rest
termination_by text.length

/-- Reads the items of an array, from after its opening bracket or a comma on. -/
def arrayItems? (value? : Reader Item) (text : List Char) : Option (List Item × List Char) :=
  let text' := skipLines text
  match skip? ']' text' with
  | some after => some ([], after)
  | none =>
    match value? text' with
    | none => none
    | some (item, rest) =>
      let rest := skipLines rest
      match skip? ']' rest with
      | some after => some ([item], after)
      | none =>
        match skip? ',' rest with
        | none => none
        | some rest =>
          if _h : rest.length < text.length then
            (arrayItems? value? rest).map fun (items, after) => (item :: items, after)
          else none
termination_by text.length

/-- Reads the entries of an inline table into a table, from a key on. -/
def inlineEntries? (value? : Reader Item) (t : Table) (text : List Char) :
    Option (Table × List Char) :=
  match key? text with
  | none => none
  | some (path, key, rest) =>
    match skip? '=' rest with
    | none => none
    | some rest =>
      match value? (skipWs rest) with
      | none => none
      | some (item, rest) =>
        match t.add path key item with
        | none => none
        | some t =>
          let rest := skipWs rest
          match skip? '}' rest with
          | some after => some (t, after)
          | none =>
            match skip? ',' rest with
            | none => none
            | some rest =>
              if _h : rest.length < text.length then inlineEntries? value? t rest else none
termination_by text.length

/-- Reads an inline table after its opening bracket. -/
def inlineTable? (value? : Reader Item) (text : List Char) : Option (Item × List Char) :=
  match skip? '}' (skipWs text) with
  | some after => some (.inlineTable [], after)
  | none => (inlineEntries? value? {} text).map fun (t, after) => (.inlineTable t.entries, after)

/-- Reads a value; `depth` more brackets may be opened in it. -/
def value? (depth : Nat) (text : List Char) : Option (Item × List Char) :=
  match text with
  | [] => none
  | c :: rest =>
    match c with
    | '"' | '\'' => (string? text).map fun (s, after) => (.text (.ofList s), after)
    | '[' =>
      match depth with
      | 0 => none
      | depth + 1 =>
        (arrayItems? (value? depth) rest).map fun (items, after) => (.array items, after)
    | '{' =>
      match depth with
      | 0 => none
      | depth + 1 => inlineTable? (value? depth) rest
    | 't' => if "rue".toList.isPrefixOf rest then some (.bool true, rest.drop 3) else none
    | 'f' => if "alse".toList.isPrefixOf rest then some (.bool false, rest.drop 4) else none
    | _ => number? text
termination_by structural depth

/-! ### Lines -/

/-- What follows the end of a line, with the blanks and the comment before it. -/
def endOfLine? (text : List Char) : Option (List Char) :=
  match skipComment (skipWs text) with
  | [] => some []
  | rest => newline? rest

/-- Reads a header after its opening brackets: the key, and what follows the closing ones. -/
def header? (closing : List Char) (text : List Char) :
    Option (List String × String × List Char) := do
  let (path, key, rest) ← key? text
  guard (closing.isPrefixOf rest)
  return (path, key, rest.drop closing.length)

/-- Reads a line into a document: the document, and what follows the line. -/
def line? (d : Document) (text : List Char) : Option (Document × List Char) :=
  match text with
  | '[' :: '[' :: rest => do
    let (path, key, rest) ← header? [']', ']'] rest
    let after ← endOfLine? rest
    let d ← d.openArray path key
    return (d, after)
  | '[' :: rest => do
    let (path, key, rest) ← header? [']'] rest
    let after ← endOfLine? rest
    let d ← d.openTable path key
    return (d, after)
  | _ =>
    match endOfLine? text with
    | some after => some (d, after)
    | none => do
      let (path, key, rest) ← key? text
      let rest ← skip? '=' rest
      let (item, rest) ← value? (nestingLimit - 1) (skipWs rest)
      let after ← endOfLine? rest
      let d ← d.add path key item
      return (d, after)

/-- Reads lines into a document until the text ends. -/
def lines? (d : Document) (text : List Char) : Option Document :=
  let text' := skipWs text
  if text'.isEmpty then some d
  else match line? d text' with
    | none => none
    | some (d, rest) => if _h : rest.length < text.length then lines? d rest else none
termination_by text.length

/-- The text without the mark of its byte order. -/
def dropByteOrderMark : List Char → List Char
  | '\ufeff' :: rest => rest
  | text => text

/-- Reads a whole document: its top-level entries. -/
def read? (text : List Char) : Option (Entries Item) := do
  let d ← lines? {} (dropByteOrderMark text)
  let t ← d.close
  return t.entries

end DocPath.Toml
