import DocPath.Value.Equality

/-!
# DocPath.Path.Basic

Compiled paths. A path is a list of operations. Most are single steps; an alternation holds several
lists of steps, which are evaluated against the same value. That an alternation holds steps only,
and no further alternation, is part of the type.
-/

namespace DocPath

/-- One side of an index. -/
inductive Bound where
  /-- No bound on this side. -/
  | wildcard
  /-- A position, counted from the end if negative. -/
  | at (n : Int64)
  deriving DecidableEq, Repr

/-- Whether the bound is missing. -/
def Bound.isWildcard : Bound → Bool
  | wildcard => true
  | .at _ => false

/-- Whether an index selects one element or a slice. -/
inductive IndexMode where
  | single
  | range
  deriving DecidableEq, Repr

/-- A selection from a sequence. Its bounds are resolved against each sequence it is applied to. -/
structure Index where
  start : Bound
  stop : Bound
  mode : IndexMode
  deriving DecidableEq, Repr

namespace Index

/-- The index of one element; the wildcard selects every element. -/
def one (b : Bound) : Index := ⟨b, .wildcard, .single⟩

/-- The slice from one bound up to another, which is not included. -/
def slice (start stop : Bound) : Index := ⟨start, stop, .range⟩

/-- Whether the index gives exactly one value wherever it is applied. -/
def isBounded (i : Index) : Bool :=
  match i.mode with
  | .single => !i.start.isWildcard
  | .range => !i.start.isWildcard && !i.stop.isWildcard

end Index

/-- The type of a default. -/
inductive DefaultKind where
  | int
  | str
  | float
  | bool
  | list
  | dict
  deriving DecidableEq, Repr

namespace DefaultKind

/-- All types of defaults. -/
def all : List DefaultKind := [int, str, float, bool, list, dict]

/-- The name of a type, as it is written in a path. -/
def name : DefaultKind → String
  | int => "int"
  | str => "str"
  | float => "float"
  | bool => "bool"
  | list => "list"
  | dict => "dict"

/-- The type with a name. -/
def ofName? (name : String) : Option DefaultKind :=
  all.find? (·.name == name)

@[simp] theorem ofName?_name (k : DefaultKind) : ofName? k.name = some k := by
  cases k <;> decide

/-- A name is that of a type exactly if it is the one written for it. -/
theorem ofName?_eq_some_iff {s : String} {k : DefaultKind} : ofName? s = some k ↔ s = k.name := by
  constructor
  · intro h
    have := List.find?_some h
    exact (beq_iff_eq.1 this).symm
  · rintro rfl
    exact ofName?_name k

end DefaultKind

/-- A value for what is absent. -/
structure Default where
  /-- The value itself. -/
  value : Value
  kind : DefaultKind
  /-- The text of the value as it was written, quotes included. -/
  source : String
  deriving Repr

/-- A step of a path. -/
inductive Step where
  /-- The entry of a mapping with a name. -/
  | key (name : String)
  /-- A selection from a sequence. -/
  | index (i : Index)
  /-- A value to take when there is none. -/
  | default (d : Default)
  /-- Captures the current value. -/
  | capture
  /-- The boundary of two segments. -/
  | divider
  /-- The wildcard for every entry of a mapping. -/
  | anyEntry
  deriving Repr

/-- An operation of a path. -/
inductive Op where
  | step (s : Step)
  /-- Alternative lists of steps, evaluated against the same value. -/
  | alternatives (paths : List (List Step))
  deriving Repr

namespace Op

/-- The operation of a key. -/
def key (name : String) : Op := step (.key name)

/-- The operation of an index. -/
def index (i : Index) : Op := step (.index i)

/-- The operation that captures the current value. -/
def capture : Op := step .capture

/-- The operation of a boundary between segments. -/
def divider : Op := step .divider

/-- The operation of the wildcard for every entry. -/
def anyEntry : Op := step .anyEntry

/-- Whether the operation is a key. -/
def isKey : Op → Bool
  | step (.key _) => true
  | _ => false

/-- Whether the operation is an alternation. -/
def isAlternatives : Op → Bool
  | alternatives _ => true
  | _ => false

end Op

/-- A compiled path. -/
structure Path where
  ops : List Op
  deriving Repr

/-! ### Equality

Paths compare operation by operation, the values of defaults as documents do. -/

/-- Equality of defaults. -/
def Default.equal (a b : Default) : Bool :=
  a.value.equal b.value && a.kind == b.kind && a.source == b.source

/-- Equality of steps. -/
def Step.equal : Step → Step → Bool
  | key m, key n => m == n
  | index i, index j => i == j
  | default a, default b => a.equal b
  | capture, capture => true
  | divider, divider => true
  | anyEntry, anyEntry => true
  | _, _ => false

/-- Equality of lists, given that of their items. -/
def equalLists (equal : α → α → Bool) : List α → List α → Bool
  | [], [] => true
  | a :: as, b :: bs => equal a b && equalLists equal as bs
  | _, _ => false

/-- Equality of operations. -/
def Op.equal : Op → Op → Bool
  | step s, step t => s.equal t
  | alternatives ps, alternatives qs => equalLists (equalLists Step.equal) ps qs
  | _, _ => false

/-- Equality of paths. -/
def Path.equal (p q : Path) : Bool :=
  equalLists Op.equal p.ops q.ops

end DocPath
