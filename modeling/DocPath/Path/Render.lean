import DocPath.Delimiters.Basic
import DocPath.Path.Basic

/-!
# DocPath.Path.Render

The text of a path in given delimiters. Inside an alternative the steps are divided by the
continuation, elsewhere by the segment divider. A key runs into the name that follows it, so a
divider is also written between a key and a key or an alternation directly after it.
-/

namespace DocPath

open DocPath.Text

/-- The text of a bound. -/
def Bound.render (d : Delimiters) : Bound → List Char
  | wildcard => [d.wildcard]
  | .at n => Numeral.ofInt n.toInt

/-- The text of an index, brackets included. -/
def Index.render (d : Delimiters) (i : Index) : List Char :=
  let stop :=
    match i.mode with
    | .single => []
    | .range => d.rangeSeparator :: i.stop.render d
  d.indexOpen :: i.start.render d ++ stop ++ [d.indexClose]

/-- The text of a default, brackets included. -/
def Default.render (d : Delimiters) (v : Default) : List Char :=
  d.defaultOpen :: v.source.toList ++ d.typeDelimiter :: v.kind.name.toList ++ [d.defaultClose]

/-- The text of a step, with the character that divides steps. -/
def Step.render (d : Delimiters) (divider : Char) : Step → List Char
  | key name => name.toList
  | index i => i.render d
  | default v => v.render d
  | capture => [d.contextMarker]
  | .divider => [divider]
  | anyEntry => [d.anyEntryOpen, d.wildcard, d.anyEntryClose]

/-- Whether the step is a key. -/
def Step.isKey : Step → Bool
  | key _ => true
  | _ => false

/-- The text of the steps of an alternative. -/
def renderSteps (d : Delimiters) : List Step → List Char
  | [] => []
  | [s] => s.render d d.continuation
  | s :: t :: rest =>
    s.render d d.continuation ++
      (if s.isKey && t.isKey then [d.continuation] else []) ++ renderSteps d (t :: rest)

/-- The texts of alternatives, with the alternation between them. -/
def renderAlternatives (d : Delimiters) : List (List Step) → List Char
  | [] => []
  | [path] => renderSteps d path
  | path :: rest => renderSteps d path ++ d.alternation :: renderAlternatives d rest

/-- The text of an operation. -/
def Op.render (d : Delimiters) : Op → List Char
  | step s => s.render d d.segmentDivider
  | alternatives paths => renderAlternatives d paths

/-- The text of operations in order. -/
def renderOps (d : Delimiters) : List Op → List Char
  | [] => []
  | [op] => op.render d
  | op :: next :: rest =>
    op.render d ++
      (if op.isKey && (next.isKey || next.isAlternatives) then [d.segmentDivider] else []) ++
      renderOps d (next :: rest)

/-- The text of an index in the default delimiters. -/
def Index.text (i : Index) : String :=
  .ofList (i.render .standard)

/-- The text of an operation in the default delimiters. -/
def Op.text (op : Op) : String :=
  .ofList (op.render .standard)

/-- The text of a path in given delimiters. -/
def Path.render (d : Delimiters) (p : Path) : String :=
  .ofList (renderOps d p.ops)

/-- The text of a path in the default delimiters. -/
def Path.text (p : Path) : String :=
  p.render .standard

end DocPath
