import DocPath.Binary64.Numeral
import DocPath.Datum
import DocPath.Yaml.Tag

/-!
# DocPath.Yaml.Plain

What the text of a scalar stands for. A plain scalar without a tag is null, a bool, an integer, a
float or else a string. Integers are decimal, hexadecimal, octal or binary, and decimal ones have
no leading zeros. A tag of YAML's own asks for one of these types; any other tag of its kind gives
a string, and a tag of the document's own makes its node a variant with that name.
-/

namespace DocPath.Yaml

open DocPath.Text

/-! ### Types of plain scalars -/

/-- Whether a text is one of the words for null. -/
def saysNull (text : List Char) : Bool :=
  ["null", "Null", "NULL", "~"].contains (String.ofList text)

/-- The bool that a text is a word for. -/
def bool? (text : List Char) : Option Bool :=
  let word := String.ofList text
  if ["true", "True", "TRUE"].contains word then some true
  else if ["false", "False", "FALSE"].contains word then some false
  else none

/-- The text without one plus sign. -/
def dropPlus : List Char → List Char
  | '+' :: rest => rest
  | text => text

/-- The text without one sign. -/
def dropSign : List Char → List Char
  | '-' :: rest => rest
  | text => dropPlus text

/-- Whether a text is a digit zero with more digits behind it, whatever its sign: that is no
number. -/
def hasLeadingZero (text : List Char) : Bool :=
  match dropSign text with
  | '0' :: c :: rest => (c :: rest).all Char.isDigit
  | _ => false

/-- Reads digits in the base that is written before them. -/
def based? : List Char → Option Nat
  | '0' :: 'x' :: digits => Numeral.readNat? 16 digits
  | '0' :: 'o' :: digits => Numeral.readNat? 8 digits
  | '0' :: 'b' :: digits => Numeral.readNat? 2 digits
  | digits => Numeral.readNat? 10 digits

/-- Reads an integer that is not negative. -/
def natural? (text : List Char) : Option Nat :=
  if hasLeadingZero text then none else based? (dropPlus text)

/-- Reads the absolute value of an integer with a minus sign. -/
def negative? : List Char → Option Nat
  | '-' :: rest => if hasLeadingZero rest then none else based? rest
  | _ => none

/-- The datum of an integer: of sixty-four bits if they are enough, of 128 bits otherwise. Beyond
those it is none, and is left to be read as a float. -/
def integer? (text : List Char) : Option Datum :=
  match natural? text, negative? text with
  | some n, _ =>
    if n < UInt64.size then some (.uint64 (.ofNat n))
    else if n < Datum.wideSize then some (.uint128 n)
    else none
  | none, some n =>
    if n ≤ UInt64.size / 2 then some (.int64 (.ofInt (-(n : Int))))
    else if n ≤ Datum.wideSize / 2 then some (.int128 (-(n : Int)))
    else none
  | none, none => none

/-- The float that a text stands for: a finite numeral, or one of the words for infinity and for
what is not a number. -/
def float? (text : List Char) : Option Binary64 :=
  let unsigned := dropPlus text
  let word := String.ofList unsigned
  if text.head? = some '+' ∧ (unsigned.head? = some '+' ∨ unsigned.head? = some '-') then none
  else if [".inf", ".Inf", ".INF"].contains word then some (.infinity false)
  else if ["-.inf", "-.Inf", "-.INF"].contains (String.ofList text) then some (.infinity true)
  else if [".nan", ".NaN", ".NAN"].contains (String.ofList text) then some (.nan false)
  else (Binary64.read? unsigned).filter (·.isFinite)

/-- The datum of a plain scalar without a tag. -/
def plainDatum (text : List Char) : Datum :=
  if text.isEmpty || saysNull text then .unit
  else match bool? text with
  | some b => .bool b
  | none =>
    match integer? text with
    | some d => d
    | none =>
      match if hasLeadingZero text then none else float? text with
      | some x => .float64 x
      | none => .string (.ofList text)

/-! ### Tags -/

/-- A tag of YAML's own. -/
def coreTag (name : String) : TagText :=
  bytesOf "tag:yaml.org,2002:".toList ++ bytesOf name.toList

/-- Whether a tag is one of the document's own. -/
def isLocalTag (tag : TagText) : Bool :=
  tag.head? == some 33

/-- The name of a tag of the document's own. A tag with broken characters has none. -/
def tagName? (tag : TagText) : Option String :=
  if isLocalTag tag then String.fromUTF8? ⟨tag.tail.toArray⟩ else none

/-- The datum of a node, given its tag and what is read without it. -/
def underTag (tag : Option TagText) (content : Datum) : Datum :=
  match tag.bind tagName? with
  | some name => .variant name content
  | none => content

/-- The datum of a scalar without a tag. -/
def untaggedDatum (isPlain : Bool) (text : List Char) : Datum :=
  if isPlain then plainDatum text else .string (.ofList text)

/-- The datum of a scalar. -/
def scalarDatum? (tag : Option TagText) (isPlain : Bool) (text : List Char) : Option Datum :=
  match tag with
  | none => some (untaggedDatum isPlain text)
  | some tag =>
    if isLocalTag tag then some (underTag tag (untaggedDatum isPlain text))
    else if tag = coreTag "bool" then (bool? text).map .bool
    else if tag = coreTag "int" then integer? text
    else if tag = coreTag "float" then (float? text).map .float64
    else if tag = coreTag "null" then if saysNull text then some .unit else none
    else some (.string (.ofList text))

end DocPath.Yaml
