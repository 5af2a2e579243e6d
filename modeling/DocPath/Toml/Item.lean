import DocPath.Binary64.Basic
import DocPath.Entries

/-!
# DocPath.Toml.Item

What a TOML document is made of, and how it grows line by line. Tables come into being in several
ways, which decide how they may grow later: by a header, by a dotted key, or implicitly because a
header names a table inside them. A `Document` is one that is still being read; its current table
is the one under the last header.
-/

namespace DocPath.Toml

/-- A value or a table. -/
inductive Item where
  | text (s : String)
  | integer (n : Int64)
  | float (x : Binary64)
  | bool (b : Bool)
  /-- A date, a time or both, as written. -/
  | moment (s : String)
  | array (items : List Item)
  /-- A table written as a value, which cannot grow any more. -/
  | inlineTable (entries : List (String × Item))
  /-- A table. An implicit one was only named on the way to another; a dotted one was named by the
  first keys of a dotted key. -/
  | table (isImplicit isDotted : Bool) (entries : List (String × Item))
  /-- The tables of an array of tables, last first. -/
  | tables (items : List (List (String × Item)))
  deriving Inhabited

/-- A table that may still grow. -/
structure Table where
  isImplicit : Bool := false
  isDotted : Bool := false
  entries : Entries Item := []

namespace Table

/-- The item of a table. -/
def toItem (t : Table) : Item := .table t.isImplicit t.isDotted t.entries

/-- The table with an entry put into it. -/
def put (key : String) (item : Item) (t : Table) : Table :=
  { t with entries := t.entries.put key item }

/-- Changes the table at the end of a path, and hands out what the change gives besides. Tables
that are missing on the way are made: they are implicit, and dotted if the path belongs to a dotted
key. A dotted key may not go through a table that a header has defined; nothing goes through a
value; an array of tables is gone through by its last table. -/
def modifyAt (t : Table) (dotted : Bool) (change : Table → Option (β × Table)) :
    (path : List String) → Option (β × Table)
  | [] => change t
  | key :: rest =>
    let down (child : Table) (wrap : Table → Item) : Option (β × Table) :=
      (child.modifyAt dotted change rest).map fun (b, child) => (b, t.put key (wrap child))
    match t.entries.lookup key with
    | none => down { isImplicit := true, isDotted := dotted } toItem
    -- A header has the last word on its table: a dotted key elsewhere cannot reopen it.
    | some (.table isImplicit isDotted entries) =>
      if dotted && !isImplicit then none
      else down { isImplicit, isDotted, entries } toItem
    | some (.tables (last :: before)) =>
      down { entries := last } fun child => .tables (child.entries :: before)
    | some _ => none

/-- Adds the value of the last part of a key to a table, which must not have the part yet. With
parts before it, the table has to be a dotted one, and without, one that is not. -/
def addLast (plain : Bool) (key : String) (item : Item) (t : Table) : Option (Unit × Table) :=
  if t.isDotted == plain || (t.entries.lookup key).isSome then none
  else some ((), t.put key item)

/-- Adds the value of a key, given by the parts before the last one and the last one. -/
def add (path : List String) (key : String) (item : Item) (t : Table) : Option Table :=
  (t.modifyAt true (addLast path.isEmpty key item) path).map (·.2)

end Table

/-- A document that is being read. -/
structure Document where
  /-- The tables above the last header. -/
  root : Table := {}
  /-- The table under the last header. -/
  current : Table := {}
  /-- The keys of the last header, the last key apart; nothing before the first header. -/
  header : Option (List String × String) := none
  /-- Whether the last header was that of an array of tables. -/
  inArray : Bool := false

namespace Document

/-- Adds the value of a key to the current table. -/
def add (path : List String) (key : String) (item : Item) (d : Document) : Option Document :=
  (d.current.add path key item).map fun current => { d with current }

/-- Puts a table into its parent, as a table or at the end of an array of tables. -/
def place (inArray : Bool) (key : String) (t : Table) (parent : Table) : Option (Unit × Table) :=
  match inArray, parent.entries.lookup key with
  | false, none => some ((), parent.put key t.toItem)
  | true, none => some ((), parent.put key (.tables [t.entries]))
  | true, some (.tables items) => some ((), parent.put key (.tables (t.entries :: items)))
  | _, _ => none

/-- The whole table of a document, with the current table in its place. -/
def close (d : Document) : Option Table :=
  match d.header with
  | none => some d.current
  | some (path, key) => (d.root.modifyAt false (place d.inArray key d.current) path).map (·.2)

/-- Takes what a header's table already has out of its parent. It may have been named before only
on the way to other tables. -/
def takeOut (key : String) (parent : Table) : Option (Entries Item × Table) :=
  match parent.entries.take? key with
  | none => some ([], parent)
  | some (.table true false entries, others) => some (entries, { parent with entries := others })
  | some _ => none

/-- Begins the table of a header. -/
def openTable (path : List String) (key : String) (d : Document) : Option Document := do
  let root ← d.close
  let (entries, root) ← root.modifyAt false (takeOut key) path
  return { root, current := { entries }, header := some (path, key) }

/-- Begins another table of an array of tables. -/
def openArray (path : List String) (key : String) (d : Document) : Option Document := do
  let root ← d.close
  return { root, header := some (path, key), inArray := true }

end Document

end DocPath.Toml
