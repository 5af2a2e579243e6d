import DocPath.Value.Basic

/-!
# DocPath.Value.Equality

Equality of values as documents compare: an integer never equals a float, floats compare as
numbers (so that a value which holds what is not a number differs from itself), sequences compare
item by item, and mappings compare regardless of the order of their entries.
-/

namespace DocPath

/-- Equality of numbers of the same kind. -/
def Number.equal : Number → Number → Bool
  | .integer m, .integer n => m == n
  | .float x, .float y => x.equal y
  | _, _ => false

namespace Value

mutual

/-- Equality of values. -/
def equal : Value → Value → Bool
  | .null, .null => true
  | .bool a, .bool b => a == b
  | .number m, .number n => m.equal n
  | .string s, .string t => s == t
  | .sequence as, .sequence bs => equalItems as bs
  | .mapping as, .mapping bs => as.length == bs.length && foundIn bs as
  | _, _ => false

/-- Equality item by item. -/
def equalItems : List Value → List Value → Bool
  | [], [] => true
  | a :: as, b :: bs => equal a b && equalItems as bs
  | _, _ => false

/-- Whether every entry of the second mapping is found, with an equal value, in the first. -/
def foundIn (others : List (String × Value)) : List (String × Value) → Bool
  | [] => true
  | (key, value) :: rest =>
    (match others.lookup key with
      | some other => equal value other
      | none => false) && foundIn others rest

end

end Value

end DocPath
