import DocPath.Binary64.Rounding
import DocPath.Value.Basic

/-!
# DocPath.Datum

Raw data as a reader of some format delivers it, before it is a document. A datum keeps the width
of its integers and floats, tells a character from a text and an optional value from its content,
and lets anything be the key of a mapping.

* `Datum.toValue` makes a document of a datum. Integers of up to sixty-four bits are integers when
  they fit a signed word and floats otherwise; a key of a mapping becomes text. Byte strings,
  wrappers, variants and integers of 128 bits have no place in a document.
* `Datum.toKey` gives the text of a key, which has to be a scalar.
* `Datum.toNumber` reads a bare number.
-/

namespace DocPath

open DocPath.Text

/-- Data as a reader delivers it. -/
inductive Datum where
  | unit
  /-- An optional value that is not there. -/
  | absent
  /-- An optional value that is there. -/
  | present (content : Datum)
  /-- A value in a named wrapper. -/
  | wrapped (content : Datum)
  | bool (b : Bool)
  | int8 (n : Int8)
  | int16 (n : Int16)
  | int32 (n : Int32)
  | int64 (n : Int64)
  | int128 (n : Int)
  | uint8 (n : UInt8)
  | uint16 (n : UInt16)
  | uint32 (n : UInt32)
  | uint64 (n : UInt64)
  | uint128 (n : Nat)
  /-- A float of thirty-two bits, given by its word. -/
  | float32 (bits : UInt32)
  | float64 (x : Binary64)
  | char (c : Char)
  /-- A text that the reader lends. -/
  | string (s : String)
  /-- A text that the reader gives away. -/
  | ownedString (s : String)
  | bytes (content : List UInt8)
  | sequence (items : List Datum)
  | mapping (entries : List (Datum × Datum))
  /-- A variant of an enumeration, by its name, and what it holds. -/
  | variant (name : String) (content : Datum)
  deriving Inhabited

/-- What a reader of data was waiting for. -/
inductive Expectation where
  /-- Any document. -/
  | value
  /-- The key of a mapping. -/
  | key
  /-- Anything that can be held back and looked at again. -/
  | anything
  deriving DecidableEq, Repr

/-- The words for what was expected. -/
def Expectation.phrase : Expectation → String
  | value => "a YAML or JSON value"
  | key => "a scalar mapping key"
  | anything => "any value"

/-- A datum that has no place where it stands. -/
inductive Misfit where
  | int128 (n : Int)
  | uint128 (n : Nat)
  | bytes
  | wrapper
  | option
  | sequence
  | mapping
  | variant
  deriving DecidableEq, Repr

/-- The words for a datum that has no place. -/
def Misfit.phrase : Misfit → String
  | int128 n => "integer `" ++ .ofList (Numeral.ofInt n) ++ "` as i128"
  | uint128 n => "integer `" ++ .ofList (Numeral.ofNat n) ++ "` as u128"
  | bytes => "byte array"
  | wrapper => "newtype struct"
  | option => "Option value"
  | sequence => "sequence"
  | mapping => "map"
  | variant => "enum"

/-- Why a datum was refused. -/
inductive DatumError where
  /-- A datum of the wrong type. -/
  | misplaced (found : Misfit) (expected : Expectation)
  /-- A variant of an enumeration cannot be held back, whatever it holds. -/
  | variantHeldBack
  /-- A bare number was asked for, and this is none. -/
  | notANumber
  deriving DecidableEq, Repr

/-- The message of a refusal. -/
def DatumError.message : DatumError → String
  | misplaced found expected => "invalid type: " ++ found.phrase ++ ", expected " ++ expected.phrase
  | variantHeldBack => "untagged and internally tagged enums do not support enum input"
  | notANumber => "data did not match any variant of untagged enum Number"

namespace Datum

/-- The number of words of 128 bits. -/
def wideSize : Nat := UInt64.size * UInt64.size

/-- A number from an unsigned word: an integer if a signed word can hold it, or else a float. -/
def numberOfUInt64 (n : UInt64) : Number :=
  if n.toNat < UInt64.size / 2 then .integer (.ofNat n.toNat) else .float (.ofNat n.toNat)

/-- The number that a datum is, for the data that are numbers of up to sixty-four bits. -/
def number? : Datum → Option Number
  | int8 n => some (.integer n.toInt64)
  | int16 n => some (.integer n.toInt64)
  | int32 n => some (.integer n.toInt64)
  | int64 n => some (.integer n)
  | uint8 n => some (numberOfUInt64 n.toUInt64)
  | uint16 n => some (numberOfUInt64 n.toUInt64)
  | uint32 n => some (numberOfUInt64 n.toUInt64)
  | uint64 n => some (numberOfUInt64 n)
  | float32 bits => some (.float (.ofBinary32 bits))
  | float64 x => some (.float x)
  | _ => none

/-- The text of a mapping's key. Integers keep all their digits, also beyond a signed word. -/
def toKey : Datum → Except DatumError String
  | unit => .ok "null"
  | bool b => .ok (if b then "true" else "false")
  | char c => .ok (.singleton c)
  | string s => .ok s
  | ownedString s => .ok s
  | uint64 n => .ok (.ofList (Numeral.ofNat n.toNat))
  | int128 n => .error (.misplaced (.int128 n) .key)
  | uint128 n => .error (.misplaced (.uint128 n) .key)
  | bytes _ => .error (.misplaced .bytes .key)
  | wrapped _ => .error (.misplaced .wrapper .key)
  | absent => .error (.misplaced .option .key)
  | present _ => .error (.misplaced .option .key)
  | sequence _ => .error (.misplaced .sequence .key)
  | mapping _ => .error (.misplaced .mapping .key)
  | variant _ _ => .error (.misplaced .variant .key)
  | int8 n => .ok (Number.integer n.toInt64).text
  | int16 n => .ok (Number.integer n.toInt64).text
  | int32 n => .ok (Number.integer n.toInt64).text
  | int64 n => .ok (Number.integer n).text
  | uint8 n => .ok (.ofList (Numeral.ofNat n.toNat))
  | uint16 n => .ok (.ofList (Numeral.ofNat n.toNat))
  | uint32 n => .ok (.ofList (Numeral.ofNat n.toNat))
  | float32 bits => .ok (Number.float (.ofBinary32 bits)).text
  | float64 x => .ok (Number.float x).text

mutual

/-- The document that a datum is. The first datum without a place, in the order of the data, is
the error. -/
def toValue : Datum → Except DatumError Value
  | unit => .ok .null
  | absent => .ok .null
  | present content => toValue content
  | wrapped _ => .error (.misplaced .wrapper .value)
  | bool b => .ok (.bool b)
  | char c => .ok (.string (.singleton c))
  | string s => .ok (.string s)
  | ownedString s => .ok (.string s)
  | int128 n => .error (.misplaced (.int128 n) .value)
  | uint128 n => .error (.misplaced (.uint128 n) .value)
  | bytes _ => .error (.misplaced .bytes .value)
  | sequence items => (toValues items).map .sequence
  | mapping entries => (toEntries [] entries).map .mapping
  | variant _ _ => .error (.misplaced .variant .value)
  | int8 n => .ok (.ofInt64 n.toInt64)
  | int16 n => .ok (.ofInt64 n.toInt64)
  | int32 n => .ok (.ofInt64 n.toInt64)
  | int64 n => .ok (.ofInt64 n)
  | uint8 n => .ok (.number (numberOfUInt64 n.toUInt64))
  | uint16 n => .ok (.number (numberOfUInt64 n.toUInt64))
  | uint32 n => .ok (.number (numberOfUInt64 n.toUInt64))
  | uint64 n => .ok (.number (numberOfUInt64 n))
  | float32 bits => .ok (.ofFloat (.ofBinary32 bits))
  | float64 x => .ok (.ofFloat x)

/-- The documents that the items of a sequence are. -/
def toValues : List Datum → Except DatumError (List Value)
  | [] => .ok []
  | item :: rest => do
    let value ← toValue item
    let values ← toValues rest
    return value :: values

/-- Puts the entries of a mapping, key by key, into those read before. -/
def toEntries (before : Entries Value) :
    List (Datum × Datum) → Except DatumError (Entries Value)
  | [] => .ok before
  | (key, item) :: rest => do
    -- The fault of a key comes before the fault of its value.
    let name ← toKey key
    let value ← toValue item
    toEntries (before.put name value) rest

end

mutual

/-- Why a datum cannot be held back: the first integer of 128 bits or variant in it. -/
def holdFault? : Datum → Option DatumError
  | int128 n => some (.misplaced (.int128 n) .anything)
  | uint128 n => some (.misplaced (.uint128 n) .anything)
  | variant _ _ => some .variantHeldBack
  | present content => holdFault? content
  | wrapped content => holdFault? content
  | sequence items => itemHoldFault? items
  | mapping entries => entryHoldFault? entries
  | _ => none

/-- Why the items of a sequence cannot be held back. -/
def itemHoldFault? : List Datum → Option DatumError
  | [] => none
  | item :: rest => (holdFault? item).or (itemHoldFault? rest)

/-- Why the entries of a mapping cannot be held back, keys before their values. -/
def entryHoldFault? : List (Datum × Datum) → Option DatumError
  | [] => none
  | (key, item) :: rest => ((holdFault? key).or (holdFault? item)).or (entryHoldFault? rest)

end

/-- The bare number that a datum is. The whole datum is held back before it is looked at. -/
def toNumber (d : Datum) : Except DatumError Number :=
  match holdFault? d, number? d with
  | some e, _ => .error e
  | none, some n => .ok n
  | none, none => .error .notANumber

end Datum

end DocPath
