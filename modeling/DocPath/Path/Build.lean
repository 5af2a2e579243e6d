import DocPath.Path.Error
import DocPath.Path.Render
import DocPath.Text.Blank

/-!
# DocPath.Path.Build

Paths built from operations instead of text, with checks that keep them readable: a key has to be
one that its text reads back as, an alternation has to be last, and each alternative has to give
exactly one value, whatever it is evaluated against. `Draft` is what such a path is built from.
-/

namespace DocPath

open DocPath.Text

/-! ### Keys -/

/-- The characters at which a key ends. -/
def Delimiters.keyEnds (d : Delimiters) : List Char :=
  [d.indexOpen, d.defaultOpen, d.anyEntryOpen, d.contextMarker, d.continuation, d.segmentDivider]

/-- The characters that the name of a key cannot hold. -/
def Delimiters.keyStops (d : Delimiters) : List Char :=
  [d.segmentDivider, d.contextMarker, d.indexOpen, d.defaultOpen, d.anyEntryOpen, d.alternation,
    d.continuation]

/-- Why a name cannot be a key in given delimiters. -/
def keyFault? (d : Delimiters) (name : List Char) : Option Malformation :=
  if name = [] ∨ trim name ≠ name then some .untrimmedKey
  else (name.find? (d.keyStops.contains ·)).map .delimiterInKey

/-- Why an operation has no place in any list. -/
def Op.fault? : Op → Option CompileError
  | .step (.key name) => (keyFault? .standard name.toList).map (.malformed name)
  | _ => none

/-! ### Alternations -/

/-- The step that an operation of an alternative is, unless it could give no value or several. The
alternative is named in the error. -/
def Op.toStep? (path : String) : Op → Except CompileError Step
  | .alternatives _ => .error (.nestedAlternation path)
  | .step .anyEntry => .error (.anyEntryInAlternation path)
  | .step (.index i) =>
    if i.isBounded then .ok (.index i) else .error (.unboundedIndexInAlternation path)
  | .step s => .ok s

/-- The steps of a path that is to be an alternative. -/
def Path.toSteps? (p : Path) : Except CompileError (List Step) :=
  p.ops.mapM (Op.toStep? p.text)

/-- The alternation between paths. -/
def Op.ofPaths? (paths : List Path) : Except CompileError Op :=
  (paths.mapM Path.toSteps?).map .alternatives

/-- The first alternation that is not the last operation. -/
def misplaced? : List Op → Option Op
  | [] => none
  | [_] => none
  | op :: rest => if op.isAlternatives then some op else misplaced? rest

/-- The path of a list of operations. Its keys are checked first, in order. -/
def Path.ofOps? (ops : List Op) : Except CompileError Path :=
  match ops.findSome? Op.fault? with
  | some e => .error e
  | none =>
    match misplaced? ops with
    | some op => .error (.misplacedAlternation op.text)
    | none => .ok ⟨ops⟩

/-! ### Drafts -/

/-- An operation that is still to be checked; alternatives may hold anything. -/
inductive Draft where
  | step (s : Step)
  | alternatives (paths : List (List Draft))

namespace Draft

mutual

/-- The operation of a draft. Each alternative is built as a path before the alternation is. -/
def toOp? : Draft → Except CompileError Op
  | step s => .ok (.step s)
  | alternatives paths => do
    let paths ← toPaths? paths
    Op.ofPaths? paths

/-- The operations of drafts, in order. -/
def toOps? : List Draft → Except CompileError (List Op)
  | [] => .ok []
  | draft :: rest => do
    let op ← toOp? draft
    let ops ← toOps? rest
    return op :: ops

/-- The paths of lists of drafts, in order. -/
def toPaths? : List (List Draft) → Except CompileError (List Path)
  | [] => .ok []
  | drafts :: rest => do
    -- Each alternative is checked as a whole before the next one is looked at.
    let ops ← toOps? drafts
    let path ← Path.ofOps? ops
    let paths ← toPaths? rest
    return path :: paths

end

end Draft

/-- The path of a list of drafts. -/
def Path.ofDrafts? (drafts : List Draft) : Except CompileError Path := do
  let ops ← Draft.toOps? drafts
  Path.ofOps? ops

end DocPath
