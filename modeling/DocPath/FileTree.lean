/-!
# DocPath.FileTree

A tree of directories and files, as a value, and the names by which it is used. A name is read as
steps from a directory: into one of its entries, or with two dots to the directory above. Each step
is taken in a directory that is there, so `a/../b` names something only if `a` is a directory.
`find?_put` says what stands in the tree after a change.
-/

namespace DocPath

/-! ### Names -/

/-- A name as it is written: parts with slashes between them. A slash before the first part says
that the name starts in the topmost directory. -/
structure FileName where
  isAbsolute : Bool
  parts : List String
  deriving DecidableEq, Repr

namespace FileName

/-- The parts of a text with slashes between them. -/
def splitParts : List Char → List (List Char)
  | [] => [[]]
  | '/' :: rest => [] :: splitParts rest
  | c :: rest =>
    match splitParts rest with
    | [] => [[c]]
    | part :: parts => (c :: part) :: parts

/-- The name that a text writes. -/
def ofString (s : String) : FileName :=
  match s.toList with
  | '/' :: rest => ⟨true, (splitParts rest).map String.ofList⟩
  | text => ⟨false, (splitParts text).map String.ofList⟩

/-- Whether a part stands for the directory that it is in: it is empty or a single dot. -/
def isIdle (part : String) : Bool := part == "" || part == "."

/-- The parts that lead somewhere. -/
def steps (name : FileName) : List String := name.parts.filter (!isIdle ·)

/-- Parts without the idle ones at their end. -/
def dropIdleEnd (parts : List String) : List String :=
  (parts.reverse.dropWhile isIdle).reverse

/-- The name without its last step. -/
def parent (name : FileName) : FileName :=
  { name with parts := dropIdleEnd (dropIdleEnd name.parts).dropLast }

/-- The number of bytes of the written name. -/
def size (name : FileName) : Nat :=
  name.parts.foldl (fun total part => total + part.utf8ByteSize) (name.parts.length - 1) +
    if name.isAbsolute then 1 else 0

/-- The greatest number of bytes of a name. -/
def sizeLimit : Nat := 4095

/-- The greatest number of bytes of an entry of a directory. -/
def entrySizeLimit : Nat := 255

/-- Whether anything can be asked of a name: it is not too long and has no character zero. -/
def isUsable (name : FileName) : Bool :=
  name.size ≤ sizeLimit && name.parts.all (!·.toList.contains '\x00')

/-- Whether only a directory can have the name: it ends in an idle part. -/
def namesDirectory (name : FileName) : Bool := name.parts.getLast?.all isIdle

/-- Whether a dot is the last of the parts that are not empty. -/
def endsInDot (name : FileName) : Bool :=
  (name.parts.reverse.dropWhile (· == "")).head? == some "."

end FileName

/-! ### Places -/

/-- A place in a tree: the names of the entries that lead there from the topmost directory, the last
first. -/
abbrev Place := List String

namespace Place

/-- The topmost directory. There is none above it. -/
def top : Place := []

/-- The directory where names start that are not absolute. No part of a name leads back to it from
above. -/
def home : Place := [""]

/-- The place that a step from a directory leads to. -/
def step (place : Place) (part : String) : Place :=
  if part = ".." then place.tail else part :: place

end Place

/-- The place where a name starts. -/
def FileName.start (name : FileName) : Place := if name.isAbsolute then .top else .home

/-! ### Trees -/

/-- What stands at a place. -/
inductive FileNode where
  | file (content : ByteArray)
  | directory

/-- A tree of directories and files: what stands at its places. Of two entries for one place the
first holds. -/
structure FileTree where
  nodes : List (Place × FileNode) := [(.home, .directory), (.top, .directory)]

namespace FileTree

/-- What stands at a place. -/
def find? (t : FileTree) (place : Place) : Option FileNode := t.nodes.lookup place

/-- The tree with something else at a place. -/
def put (t : FileTree) (place : Place) (node : FileNode) : FileTree :=
  { nodes := (place, node) :: t.nodes }

/-- After a change its place has what was put there, and all other places have what they had. -/
theorem find?_put (t : FileTree) (place other : Place) (node : FileNode) :
    (t.put place node).find? other = if other = place then some node else t.find? other := by
  by_cases h : other = place
  · subst h; simp [find?, put]
  · have hne : (other == place) = false := beq_eq_false_iff_ne.2 h
    simp only [find?, put, List.lookup_cons, hne, if_neg h]

/-- Whether there is a directory at a place. -/
def hasDirectory (t : FileTree) (place : Place) : Bool :=
  match t.find? place with
  | some .directory => true
  | _ => false

/-- The place that steps lead to, each taken in a directory that is there. At the place itself there
may be nothing. -/
def follow? (t : FileTree) : (steps : List String) → Place → Option Place
  | [], place => some place
  | part :: rest, place => if t.hasDirectory place then t.follow? rest (place.step part) else none

/-- The place of a name. -/
def place? (t : FileTree) (name : FileName) : Option Place := t.follow? name.steps name.start

/-- The content of the file with a name. -/
def content? (t : FileTree) (name : FileName) : Option ByteArray :=
  if !name.isUsable || name.namesDirectory then none
  else match (t.place? name).bind t.find? with
    | some (.file content) => some content
    | _ => none

/-- The tree with a file under a name, in a directory that is there. -/
def write? (t : FileTree) (name : FileName) (content : ByteArray) : Option FileTree :=
  if !name.isUsable || name.namesDirectory then none
  else match t.place? name with
    | none => none
    | some place =>
      let fits := place.head?.all (·.utf8ByteSize ≤ FileName.entrySizeLimit)
      if t.hasDirectory place || !fits then none else some (t.put place (.file content))

/-- Takes steps from a directory and makes the directories that are missing: whether all steps could
be taken, and the tree. The directories made before a step that fails stay. -/
def makeWay (t : FileTree) : (steps : List String) → Place → Bool × FileTree
  | [], _ => (true, t)
  | part :: rest, place =>
    let next := place.step part
    match t.find? next with
    | some .directory => t.makeWay rest next
    | some (.file _) => (false, t)
    | none =>
      if part.utf8ByteSize ≤ FileName.entrySizeLimit then (t.put next .directory).makeWay rest next
      else (false, t)

/-- Makes the directory with a name, and those on the way to it: whether it is there then, and the
tree. A dot at the end of the name asks for the directory before it, which is not made. -/
def makeDirectory (t : FileTree) (name : FileName) : Bool × FileTree :=
  if !name.isUsable then (false, t)
  else if name.endsInDot then
    let (_, t) := t.makeWay name.steps.dropLast name.start
    ((t.place? name).any t.hasDirectory, t)
  else t.makeWay name.steps name.start

end FileTree

end DocPath
