import DocPath.Delimiters.Basic
import DocPath.Text.Alphanumeric
import DocPath.Text.Blank

/-!
# DocPath.Delimiters.Validation

Whether delimiters can be told apart while a text is scanned. No delimiter may be alphanumeric or
blank. The structural ones have to differ from each other. The range separator and the type
delimiter count only inside their brackets: they may share a character with others and with each
other, but not with what can stand in the same brackets.
-/

namespace DocPath

/-- Something that can already hold a character that a delimiter asks for. -/
inductive Holder where
  | role (r : Role)
  /-- The sign of a negative bound. -/
  | minusSign
  deriving DecidableEq, Repr

/-- The name of a holder in messages. -/
def Holder.label : Holder → String
  | role r => r.label
  | minusSign => "minus sign"

/-- Why delimiters cannot be told apart. -/
inductive DelimiterError where
  /-- A delimiter is alphanumeric or blank. -/
  | unusable (c : Char) (role : Role)
  /-- Two uses have the same character. -/
  | duplicate (c : Char) (first : Role) (second : Holder)
  deriving DecidableEq, Repr

/-- The message of a failed validation. -/
def DelimiterError.message : DelimiterError → String
  | unusable c role =>
    "delimiter '" ++ c.toString ++ "' for " ++ role.label ++
      " must not be alphanumeric or whitespace"
  | duplicate c first second =>
    "delimiter '" ++ c.toString ++ "' for " ++ first.label ++ " is also used for " ++ second.label

namespace Delimiters

/-- The first role with a character that cannot be a delimiter. -/
def unusable? (d : Delimiters) : Option DelimiterError :=
  (Role.structural ++ Role.bracketed).findSome? fun r =>
    if Text.isAlphanumeric (d.char r) || Text.isBlank (d.char r) then
      some (.unusable (d.char r) r)
    else none

/-- The first role of a list whose character comes again, with the next role that has it. -/
def firstRepeat? (d : Delimiters) : List Role → Option DelimiterError
  | [] => none
  | r :: rest =>
    match rest.find? (fun s => d.char r == d.char s) with
    | some s => some (.duplicate (d.char r) r (.role s))
    | none => d.firstRepeat? rest

/-- The character of a holder. -/
def holderChar (d : Delimiters) : Holder → Char
  | .role r => d.char r
  | .minusSign => '-'

/-- What a bracketed delimiter may not share its character with. -/
def bracketClashes : List (Role × Holder) :=
  [(.rangeSeparator, .role .indexClose), (.rangeSeparator, .role .wildcard),
    (.rangeSeparator, .minusSign), (.typeDelimiter, .role .defaultClose)]

/-- The first bracketed delimiter that shares its character with what stands in its brackets. -/
def bracketClash? (d : Delimiters) : Option DelimiterError :=
  bracketClashes.findSome? fun (r, h) =>
    if d.char r == d.holderChar h then some (.duplicate (d.char r) r h) else none

/-- The first reason why the delimiters cannot be told apart. -/
def fault? (d : Delimiters) : Option DelimiterError :=
  (d.unusable?.or (d.firstRepeat? Role.structural)).or d.bracketClash?

/-- Refuses delimiters that cannot be told apart. -/
def validate (d : Delimiters) : Except DelimiterError Unit :=
  match d.fault? with
  | some e => .error e
  | none => .ok ()

theorem fault?_standard : standard.fault? = none := by
  decide +kernel

/-- The default delimiters can be told apart. -/
theorem validate_standard : standard.validate = .ok () := by
  rw [validate, fault?_standard]

/-- Validation accepts exactly the delimiters without a fault. -/
theorem validate_eq_ok_iff {d : Delimiters} : d.validate = .ok () ↔ d.fault? = none := by
  unfold validate
  split <;> simp_all

/-- Validation fails with the first fault. -/
theorem validate_eq_error_iff {d : Delimiters} {e : DelimiterError} :
    d.validate = .error e ↔ d.fault? = some e := by
  unfold validate
  split <;> simp_all

end Delimiters

end DocPath
