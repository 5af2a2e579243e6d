import DocPath.Json.Token

/-!
# DocPath.Json.Reader

Reading of JSON text. The tokens are taken one by one by a machine that keeps the open brackets,
innermost first, and what may come next. A text is read when its tokens end with one finished datum
and no open bracket; at most 127 brackets may be open at a time.
-/

namespace DocPath.Json

/-- An open bracket, with what has been read in it, last first. -/
inductive Bracket where
  | sequence (items : List Datum)
  | mapping (entries : List (Datum × Datum))
  /-- A mapping whose last key still lacks its value. -/
  | entry (entries : List (Datum × Datum)) (key : Datum)

/-- What may come next. -/
inductive Awaited where
  /-- A datum. -/
  | datum
  /-- A datum, or the end of the sequence just opened. -/
  | firstItem
  /-- A key. -/
  | key
  /-- A key, or the end of the mapping just opened. -/
  | firstKey
  /-- The colon after a key. -/
  | colon
  /-- A comma or the end of the innermost bracket. -/
  | separator
  deriving DecidableEq

/-- The state of the reading. -/
inductive State where
  | open (brackets : List Bracket) (awaited : Awaited)
  | finished (d : Datum)

/-- The state before the first token. -/
def State.start : State := .open [] .datum

/-- The number of brackets that may be open at a time. -/
def depthLimit : Nat := 127

/-- The state after a datum is complete. -/
def deliver (d : Datum) : List Bracket → Option State
  | [] => some (.finished d)
  | .sequence items :: rest => some (.open (.sequence (d :: items) :: rest) .separator)
  | .entry entries key :: rest => some (.open (.mapping ((key, d) :: entries) :: rest) .separator)
  | .mapping _ :: _ => none

/-- The state after the innermost bracket is closed by a token. -/
def close : Token → List Bracket → Option State
  | .closeSequence, .sequence items :: rest => deliver (.sequence items.reverse) rest
  | .closeMapping, .mapping entries :: rest => deliver (.mapping entries.reverse) rest
  | _, _ => none

/-- The state after a token where a datum may stand. -/
def begin : Token → List Bracket → Option State
  | .scalar d, brackets => deliver d brackets
  | .openSequence, brackets =>
    if brackets.length < depthLimit then some (.open (.sequence [] :: brackets) .firstItem)
    else none
  | .openMapping, brackets =>
    if brackets.length < depthLimit then some (.open (.mapping [] :: brackets) .firstKey) else none
  | _, _ => none

/-- The state after a key. -/
def takeKey : Token → List Bracket → Option State
  | .scalar (.string s), .mapping entries :: rest =>
    some (.open (.entry entries (.string s) :: rest) .colon)
  | _, _ => none

/-- The state after a token. -/
def State.next : State → Token → Option State
  | .finished _, _ => none
  | .open brackets .datum, t => begin t brackets
  | .open brackets .firstItem, .closeSequence => close .closeSequence brackets
  | .open brackets .firstItem, t => begin t brackets
  | .open brackets .firstKey, .closeMapping => close .closeMapping brackets
  | .open brackets .firstKey, t => takeKey t brackets
  | .open brackets .key, t => takeKey t brackets
  | .open brackets .colon, .colon => some (.open brackets .datum)
  | .open (.sequence items :: rest) .separator, .comma =>
    some (.open (.sequence items :: rest) .datum)
  | .open (.mapping entries :: rest) .separator, .comma =>
    some (.open (.mapping entries :: rest) .key)
  | .open brackets .separator, t => close t brackets
  | .open _ .colon, _ => none

/-- Reads a whole text. -/
def read? (text : List Char) : Option Datum := do
  let tokens ← tokens? text
  match ← tokens.foldlM State.next .start with
  | .finished d => some d
  | .open _ _ => none

end DocPath.Json
