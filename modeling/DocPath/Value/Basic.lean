import DocPath.Binary64.Written
import DocPath.Entries

/-!
# DocPath.Value.Basic

Documents as values: nested sequences and mappings with scalar leaves. `null` is also what stands
for an absent value: it is what a missing name and a position outside a sequence give.
-/

namespace DocPath

open DocPath.Text

/-- A number: an integer of sixty-four bits, or a floating-point number. -/
inductive Number where
  | integer (n : Int64)
  | float (x : Binary64)
  deriving DecidableEq, Repr

/-- The text of a number: the decimal numeral of an integer, the plain form of a float. -/
def Number.text : Number → String
  | .integer n => .ofList (Numeral.ofInt n.toInt)
  | .float x => .ofList (x.written .plain)

/-- A document. -/
inductive Value where
  /-- The null value, which is also the absent one. -/
  | null
  | bool (b : Bool)
  | number (n : Number)
  | string (s : String)
  | sequence (items : List Value)
  /-- Named values in order; the names are distinct in every value that this library builds. -/
  | mapping (entries : List (String × Value))
  deriving Inhabited, Repr

namespace Value

/-- The value of an integer. -/
def ofInt64 (n : Int64) : Value := .number (.integer n)

/-- The value of a floating-point number. -/
def ofFloat (x : Binary64) : Value := .number (.float x)

/-- Whether the value is null. -/
def isNull : Value → Bool
  | null => true
  | _ => false

/-- Whether the value is a sequence. -/
def isSequence : Value → Bool
  | sequence _ => true
  | _ => false

/-- Whether the value is a mapping. -/
def isMapping : Value → Bool
  | mapping _ => true
  | _ => false

/-- The text of a string. -/
def string? : Value → Option String
  | string s => some s
  | _ => none

/-- The number of a sequence's items or a mapping's entries. -/
def size? : Value → Option Nat
  | sequence items => some items.length
  | mapping entries => some entries.length
  | _ => none

/-- The short name of a value's kind. -/
def kindName : Value → String
  | null => "null"
  | bool _ => "bool"
  | number (.integer _) => "int"
  | number (.float _) => "float"
  | string _ => "str"
  | sequence _ => "list"
  | mapping _ => "dict"

@[simp] theorem isNull_eq_true_iff {v : Value} : v.isNull = true ↔ v = .null := by
  cases v <;> simp [isNull]

end Value

end DocPath
