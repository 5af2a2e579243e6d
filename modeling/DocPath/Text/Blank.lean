/-!
# DocPath.Text.Blank

Blank characters and the trimming of texts. A character is blank when it has the Unicode property
`White_Space`; the property has twenty-five characters, all in the first plane, so the whole table
stands in one predicate. Texts are trimmed as lists of characters.
-/

namespace DocPath.Text

/-- The characters with the Unicode property `White_Space`. -/
def isBlank (c : Char) : Bool :=
  let n := c.toNat
  (9 ≤ n && n ≤ 13) || n == 0x20 || n == 0x85 || n == 0xA0 || n == 0x1680 ||
    (0x2000 ≤ n && n ≤ 0x200A) || n == 0x2028 || n == 0x2029 || n == 0x202F || n == 0x205F ||
    n == 0x3000

/-! ### Stripping a class of characters from the ends of a text -/

/-- Drops the characters of a class from the end of a text. -/
def stripEnd (p : Char → Bool) (text : List Char) : List Char :=
  (text.reverse.dropWhile p).reverse

/-- Drops the characters of a class from both ends of a text. -/
def strip (p : Char → Bool) (text : List Char) : List Char :=
  stripEnd p (text.dropWhile p)

/-- The text without the blanks at its start. -/
def trimStart (text : List Char) : List Char :=
  text.dropWhile isBlank

/-- The text without the blanks at its two ends. -/
def trim (text : List Char) : List Char :=
  strip isBlank text

theorem length_dropWhile_le (p : Char → Bool) (text : List Char) :
    (text.dropWhile p).length ≤ text.length :=
  (List.dropWhile_suffix p).length_le

theorem length_strip_le (p : Char → Bool) (text : List Char) :
    (strip p text).length ≤ text.length := by
  unfold strip stripEnd
  rw [List.length_reverse]
  refine Nat.le_trans (length_dropWhile_le _ _) ?_
  rw [List.length_reverse]
  exact length_dropWhile_le _ _

theorem length_trim_le (text : List Char) : (trim text).length ≤ text.length :=
  length_strip_le _ _

end DocPath.Text
