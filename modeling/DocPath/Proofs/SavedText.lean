import DocPath.Delimiters.Toml
import Mathlib.Algebra.Group.Nat.Defs

/-!
# DocPath.Proofs.SavedText

The TOML reader on the text that delimiters are saved as. The string written for a character reads
back as it, in whichever of the written forms it stands (`string?_quoteForToml`); a line of a name
and a value adds one entry to the document (`line?_entry`); so the lines of distinct roles leave
just their entries, in order (`read?_tomlLines`).

Each reader is followed up to the text that comes after what it reads, so the steps can be put
together whatever the rest is.
-/

namespace DocPath

open DocPath.Text DocPath.Toml

/-! ### Hexadecimal numerals -/

namespace Text.Numeral

theorem digitValue_hexDigit {n : Nat} (h : n < 16) : digitValue (hexDigit n) = some n := by
  have hall : ∀ n : Fin 16, digitValue (hexDigit n) = some n.val := by decide
  exact hall ⟨n, h⟩

theorem length_hex (width n : Nat) : (hex width n).length = width := by
  induction width generalizing n with
  | zero => rfl
  | succ width ih => rw [hex, List.length_append, ih, List.length_singleton]

theorem isDigitIn_hex {width n : Nat} {c : Char} (h : c ∈ hex width n) :
    isDigitIn 16 c = true := by
  induction width generalizing n with
  | zero => cases h
  | succ width ih =>
    rw [hex, List.mem_append, List.mem_singleton] at h
    rcases h with h | rfl
    · exact ih h
    · have hlt : n % 16 < 16 := Nat.mod_lt n (by decide)
      rw [isDigitIn, digitValue_hexDigit hlt]
      exact decide_eq_true hlt

/-- The digits written for a number denote as much of it as they have room for. -/
theorem value_hex (width n : Nat) : value 16 (hex width n) = n % 16 ^ width := by
  induction width generalizing n with
  | zero => rw [Nat.pow_zero, Nat.mod_one]; rfl
  | succ width ih =>
    have hrest := ih (n / 16)
    rw [value] at hrest
    rw [hex, value, List.foldl_append, hrest, List.foldl_cons, List.foldl_nil,
      digitValue_hexDigit (Nat.mod_lt n (by decide)), Option.getD_some, Nat.pow_succ',
      Nat.mod_mul, Nat.mul_comm 16, Nat.add_comm]

theorem readNat?_hex {width n : Nat} (hwidth : width ≠ 0) (hn : n < 16 ^ width) :
    readNat? 16 (hex width n) = some n := by
  have hne : (hex width n).isEmpty = false := by
    rw [List.isEmpty_eq_false_iff, ← List.length_pos_iff, length_hex]
    exact Nat.pos_of_ne_zero hwidth
  have hall : (hex width n).all (isDigitIn 16) = true :=
    List.all_eq_true.2 fun c hc => isDigitIn_hex hc
  rw [readNat?, hne, hall, value_hex, Nat.mod_eq_of_lt hn]
  rfl

end Text.Numeral

/-! ### Strings -/

namespace Toml

/-- A character written by its number reads back. -/
theorem escape?_hex {c : Char} (h : c.toNat < 16 ^ 4) (rest : List Char) :
    escape? ('u' :: Numeral.hex 4 c.toNat ++ rest) = some (c, rest) := by
  have hlength := Numeral.length_hex 4 c.toNat
  have hcode : codePoint? (Numeral.hex 4 c.toNat) = some c := by
    rw [codePoint?, Numeral.readNat?_hex (by decide) h]
    show (if c.toNat.isValidChar then some (Char.ofNat c.toNat) else none) = some c
    have hvalid : c.toNat.isValidChar := c.valid
    rw [if_pos hvalid, Char.ofNat_toNat]
  rw [List.cons_append, escape?, if_neg (by rw [List.length_append]; omega),
    List.take_left' hlength, List.drop_left' hlength, hcode]
  rfl

theorem basicPiece?_of_isPrintable {c : Char} (hslash : c ≠ '\\')
    (hprintable : isPrintable c = true) (rest : List Char) :
    basicPiece? false (c :: rest) = some ([c], rest) := by
  unfold basicPiece?
  split
  next heq => exact absurd (List.cons.inj heq).1 hslash
  next heq =>
    obtain ⟨rfl, rfl⟩ := List.cons.inj heq
    rw [if_pos hprintable]
  next heq => cases heq

/-- A character written by its letter reads back. -/
theorem escape?_escapeLetter {c letter : Char} (h : Delimiters.escapeLetter? c = some letter)
    (rest : List Char) : escape? (letter :: rest) = some (c, rest) := by
  unfold Delimiters.escapeLetter? at h
  split at h <;> cases h <;> rfl

/-- A character as it is written in a basic string is one piece of it. -/
theorem basicPiece?_escapeForToml {c : Char} (hslash : c ≠ '\\') (rest : List Char) :
    basicPiece? false (Delimiters.escapeForToml c ++ rest) = some ([c], rest) := by
  unfold Delimiters.escapeForToml
  split
  next letter hletter =>
    show (escape? (letter :: rest)).map _ = _
    rw [escape?_escapeLetter hletter]
    rfl
  split
  next hcontrol =>
    have hlt : c.toNat < 16 ^ 4 := by omega
    show (escape? ('u' :: Numeral.hex 4 c.toNat ++ rest)).map _ = _
    rw [escape?_hex hlt]
    rfl
  next hcontrol =>
    have hprintable : isPrintable c = true := by
      have hbounds : 0x20 ≤ c.toNat ∧ c.toNat ≠ 0x7F := by omega
      simp [isPrintable, hbounds]
    exact basicPiece?_of_isPrintable hslash hprintable rest

theorem escapeForToml_head {c : Char} (hquote : c ≠ '"') :
    ∃ x xs, Delimiters.escapeForToml c = x :: xs ∧ x ≠ '"' := by
  unfold Delimiters.escapeForToml
  split
  next => exact ⟨_, _, rfl, by decide⟩
  split
  next => exact ⟨_, _, rfl, by decide⟩
  next => exact ⟨_, _, rfl, hquote⟩

/-- A string of one line that is made of one piece. -/
theorem lineString?_of_piece {quote x : Char} {piece? : Reader (List Char)}
    {piece xs rest : List Char} (hx : x ≠ quote)
    (hpiece : piece? (x :: xs ++ quote :: rest) = some (piece, quote :: rest)) :
    lineString? quote piece? (x :: xs ++ quote :: rest) = some (piece, rest) := by
  have hend : lineString? quote piece? (quote :: rest) = some ([], rest) := by
    rw [lineString?, if_pos rfl]
  have hlength : (quote :: rest).length ≤ (xs ++ quote :: rest).length := by
    rw [List.length_append]
    omega
  rw [List.cons_append] at hpiece ⊢
  rw [lineString?, if_neg hx, hpiece]
  dsimp only
  rw [dif_pos hlength, hend, Option.map_some, List.append_nil]

theorem string?_of_ne {quote x : Char} (h : x ≠ quote) (tail : List Char) :
    string? (quote :: x :: tail) = lineKey? (quote :: x :: tail) := by
  unfold string?
  split
  next heq =>
    simp only [List.cons.injEq] at heq
    exact absurd (heq.2.1.trans heq.1.symm) h
  next heq =>
    simp only [List.cons.injEq] at heq
    exact absurd (heq.2.1.trans heq.1.symm) h
  next => rfl

/-- A string of several lines that holds only a line break. -/
theorem blockString?_newline (rest : List Char) :
    blockString? '"' (basicPiece? true) ('\n' :: '"' :: '"' :: '"' :: '\n' :: rest) =
      some (['\n'], '\n' :: rest) := by
  have hend : blockString? '"' (basicPiece? true) ('"' :: '"' :: '"' :: '\n' :: rest) =
      some ([], '\n' :: rest) := by
    rw [blockString?]
    rfl
  have hpiece : basicPiece? true ('\n' :: '"' :: '"' :: '"' :: '\n' :: rest) =
      some (['\n'], '"' :: '"' :: '"' :: '\n' :: rest) := rfl
  rw [blockString?, if_neg (by decide), hpiece]
  dsimp only
  rw [dif_pos (Nat.le_refl _), hend]
  rfl

/-- The string that a character is saved as reads back as it. The line break after it is not read,
but keeps the closing quotes from being more than they are. -/
theorem string?_quoteForToml (c : Char) (rest : List Char) :
    string? (Delimiters.quoteForToml c ++ '\n' :: rest) = some ([c], '\n' :: rest) := by
  unfold Delimiters.quoteForToml
  split
  next hnewline =>
    subst hnewline
    exact blockString?_newline rest
  split
  next hquote =>
    have hc : c ≠ '\'' ∧ isPrintable c = true := by
      rcases hquote with rfl | rfl <;> decide
    have hpiece : literalPiece? false (c :: [] ++ '\'' :: '\n' :: rest) =
        some ([c], '\'' :: '\n' :: rest) := by
      rw [List.cons_append, literalPiece?, if_pos hc.2]
      rfl
    exact (string?_of_ne hc.1 _).trans (lineString?_of_piece hc.1 hpiece)
  next _ hquote =>
    rw [not_or] at hquote
    obtain ⟨x, xs, hescape, hx⟩ := escapeForToml_head hquote.1
    have hpiece := basicPiece?_escapeForToml hquote.2 ('"' :: '\n' :: rest)
    rw [hescape] at hpiece ⊢
    have htext : '"' :: (x :: xs) ++ ['"'] ++ '\n' :: rest =
        '"' :: x :: (xs ++ '"' :: '\n' :: rest) := by simp
    rw [htext, string?_of_ne hx]
    exact lineString?_of_piece hx hpiece

/-! ### Lines -/

/-- A name that is written without quotes. -/
structure BareKey (name : List Char) : Prop where
  ne_nil : name ≠ []
  bare : ∀ c ∈ name, isBare c = true

/-- The characters that are read as something else than a name at the head of a line. -/
def lineStarts : List Char := ['[', '"', '\'', '#', '\n', '\r', ' ', '\t', '\ufeff']

theorem BareKey.exists_cons {name : List Char} (h : BareKey name) :
    ∃ c cs, name = c :: cs ∧ ∀ x ∈ lineStarts, c ≠ x := by
  have hall : lineStarts.all (!isBare ·) = true := by decide
  obtain ⟨c, cs, rfl⟩ := List.exists_cons_of_ne_nil h.ne_nil
  refine ⟨c, cs, rfl, ?_⟩
  rintro x hx rfl
  have hbare := h.bare c List.mem_cons_self
  have hnot := List.all_eq_true.1 hall c hx
  rw [hbare] at hnot
  cases hnot

theorem skipWs_cons {c : Char} (h : isWs c = false) (text : List Char) :
    skipWs (c :: text) = c :: text := by
  rw [skipWs, List.dropWhile_cons_of_neg (by rw [h]; decide)]

theorem BareKey.skipWs_eq {name : List Char} (h : BareKey name) (rest : List Char) :
    skipWs (name ++ rest) = name ++ rest := by
  obtain ⟨c, cs, rfl, hc⟩ := h.exists_cons
  have hspace : c ≠ ' ' := hc _ (by decide)
  have htab : c ≠ '\t' := hc _ (by decide)
  exact skipWs_cons (by simp [isWs, hspace, htab]) _

theorem BareKey.keyPart?_eq {name : List Char} (h : BareKey name) (rest : List Char) :
    keyPart? (name ++ ' ' :: rest) = some (name, ' ' :: rest) := by
  have htake : (name ++ ' ' :: rest).takeWhile isBare = name := by
    rw [List.takeWhile_append_of_pos h.bare, List.takeWhile_cons_of_neg (by decide),
      List.append_nil]
  have hdrop : (name ++ ' ' :: rest).dropWhile isBare = ' ' :: rest := by
    rw [List.dropWhile_append_of_pos h.bare, List.dropWhile_cons_of_neg (by decide)]
  have hne : name.isEmpty = false := List.isEmpty_eq_false_iff.2 h.ne_nil
  unfold keyPart?
  obtain ⟨c, cs, rfl, hc⟩ := h.exists_cons
  split
  next heq => exact absurd (List.cons.inj heq).1 (hc _ (by decide))
  next heq => exact absurd (List.cons.inj heq).1 (hc _ (by decide))
  next =>
    dsimp only
    rw [htake, hdrop, hne]
    rfl

/-- A name before an equals sign is a key of one part. -/
theorem BareKey.key?_eq {name : List Char} (h : BareKey name) (rest : List Char) :
    key? (name ++ ' ' :: '=' :: rest) = some ([], .ofList name, '=' :: rest) := by
  have hws : skipWs (' ' :: '=' :: rest) = '=' :: rest := rfl
  have hparts : keyParts? (name ++ ' ' :: '=' :: rest) = some ([.ofList name], '=' :: rest) := by
    rw [keyParts?, h.skipWs_eq, h.keyPart?_eq]
    dsimp only
    rw [hws]
    rfl
  rw [key?, hparts]
  rfl

/-- A line that begins with a name is not over before it. -/
theorem BareKey.endOfLine?_eq_none {name : List Char} (h : BareKey name) (rest : List Char) :
    endOfLine? (name ++ rest) = none := by
  rw [endOfLine?, h.skipWs_eq]
  obtain ⟨c, cs, rfl, hc⟩ := h.exists_cons
  have hcomment : skipComment (c :: cs ++ rest) = c :: (cs ++ rest) := by
    unfold skipComment
    split
    next heq => exact absurd (List.cons.inj heq).1 (hc _ (by decide))
    next => rfl
  have hnewline : newline? (c :: (cs ++ rest)) = none := by
    unfold newline?
    split
    next heq => exact absurd (List.cons.inj heq).1 (hc _ (by decide))
    next heq => exact absurd (List.cons.inj heq).1 (hc _ (by decide))
    next => rfl
  rw [hcomment]
  exact hnewline

/-- A line of a name and a value adds the value to the current table under the name. -/
theorem line?_entry {name text rest : List Char} {item : Item} (hname : BareKey name)
    (hstart : skipWs text = text)
    (hvalue : value? (nestingLimit - 1) text = some (item, '\n' :: rest)) (d : Document) :
    line? d (name ++ ' ' :: '=' :: ' ' :: text) =
      (d.add [] (.ofList name) item).map fun d => (d, rest) := by
  have hws : skipWs (' ' :: text) = text := hstart
  have hend : endOfLine? ('\n' :: rest) = some rest := rfl
  have hkey := hname.key?_eq (' ' :: text)
  have hblank := hname.endOfLine?_eq_none (' ' :: '=' :: ' ' :: text)
  unfold line?
  obtain ⟨c, cs, rfl, hc⟩ := hname.exists_cons
  split
  next heq => exact absurd (List.cons.inj heq).1 (hc _ (by decide))
  next heq => exact absurd (List.cons.inj heq).1 (hc _ (by decide))
  next =>
    rw [hblank]
    simp only [hkey, Option.bind_eq_bind, Option.bind_some]
    have hequals : skip? '=' ('=' :: ' ' :: text) = some (' ' :: text) := rfl
    simp only [hequals, Option.bind_some, hws, hvalue, hend]
    cases d.add [] (.ofList (c :: cs)) item <;> rfl

theorem Document.add_of_lookup_eq_none {entries : Entries Item} {name : String}
    (h : entries.lookup name = none) (item : Item) :
    Document.add [] name item { current := { entries } } =
      some { current := { entries := entries ++ [(name, item)] } } := by
  have hadd : Table.add [] name item { entries } =
      some { entries := entries ++ [(name, item)] } := by
    rw [Table.add, Table.modifyAt, Table.addLast]
    simp only [h, Option.isSome_none]
    rw [← Entries.put_of_lookup_eq_none h]
    rfl
  rw [Document.add, hadd]
  rfl

end Toml

/-! ### Saved delimiters -/

theorem Role.bareKey (r : Role) : BareKey r.field.toList := by
  have hall : Role.all.all (fun r => r.field.toList.all isBare) = true := by decide
  have hne : Role.all.all (fun r => !r.field.toList.isEmpty) = true := by decide
  refine ⟨?_, List.all_eq_true.1 (List.all_eq_true.1 hall r r.mem_all)⟩
  have hr := List.all_eq_true.1 hne r r.mem_all
  rintro heq
  rw [heq] at hr
  cases hr

theorem Role.field_injective : Function.Injective Role.field := by
  intro r s h
  cases r <;> cases s <;> first | rfl | exact absurd h (by decide)

namespace Delimiters

variable (d : Delimiters)

/-- The entry that the line of a role makes. -/
def tomlEntry (r : Role) : String × Item := (r.field, .text (.ofList [d.char r]))

theorem exists_quoteForToml (c : Char) :
    ∃ quote rest, quoteForToml c = quote :: rest ∧ (quote = '"' ∨ quote = '\'') := by
  unfold quoteForToml
  split
  next => exact ⟨_, _, rfl, Or.inl rfl⟩
  split
  next => exact ⟨_, _, rfl, Or.inr rfl⟩
  next => exact ⟨_, _, rfl, Or.inl rfl⟩

theorem value?_quoteForToml (depth : Nat) (c : Char) (rest : List Char) :
    value? depth (quoteForToml c ++ '\n' :: rest) = some (.text (.ofList [c]), '\n' :: rest) := by
  have hstring := string?_quoteForToml c rest
  obtain ⟨quote, inside, hquote, h⟩ := exists_quoteForToml c
  rw [hquote] at hstring ⊢
  rw [List.cons_append] at hstring ⊢
  rcases h with rfl | rfl
  · rw [value?, hstring]
    rfl
  · rw [value?, hstring]
    rfl

theorem tomlLine_append (r : Role) (rest : List Char) :
    d.tomlLine r ++ rest = r.field.toList ++ ' ' :: '=' :: ' ' ::
      (quoteForToml (d.char r) ++ '\n' :: rest) := by
  simp [tomlLine]

/-- The line of a role adds its entry, unless its field is there already. -/
theorem line?_tomlLine {r : Role} {entries : Entries Item}
    (h : entries.lookup r.field = none) (rest : List Char) :
    line? { current := { entries } } (d.tomlLine r ++ rest) =
      some ({ current := { entries := entries ++ [d.tomlEntry r] } }, rest) := by
  have hstart : skipWs (quoteForToml (d.char r) ++ '\n' :: rest) =
      quoteForToml (d.char r) ++ '\n' :: rest := by
    obtain ⟨quote, inside, hquote, h⟩ := exists_quoteForToml (d.char r)
    rw [hquote]
    rcases h with rfl | rfl <;> rfl
  rw [tomlLine_append, line?_entry r.bareKey hstart (value?_quoteForToml _ _ rest),
    String.ofList_toList, Document.add_of_lookup_eq_none h]
  rfl

/-- By induction on the roles: the lines before have left entries for other fields only. -/
theorem lines?_tomlLines {roles : List Role} {entries : Entries Item} (hnodup : roles.Nodup)
    (hfresh : ∀ r ∈ roles, entries.lookup r.field = none) :
    lines? { current := { entries } } (d.tomlLines roles) =
      some { current := { entries := entries ++ roles.map d.tomlEntry } } := by
  induction roles generalizing entries with
  | nil =>
    rw [lines?]
    simp [tomlLines, skipWs]
  | cons r roles ih =>
    obtain ⟨hr, hnodup⟩ := List.nodup_cons.1 hnodup
    have hrest : ∀ s ∈ roles, (entries ++ [d.tomlEntry r]).lookup s.field = none := by
      intro s hs
      have hne : s.field ≠ r.field := fun heq => hr (Role.field_injective heq ▸ hs)
      rw [List.lookup_append, hfresh s (List.mem_cons_of_mem r hs), tomlEntry, List.lookup_cons,
        beq_eq_false_iff_ne.2 hne]
      rfl
    have hlines : d.tomlLines (r :: roles) = d.tomlLine r ++ d.tomlLines roles := rfl
    have hskip : skipWs (d.tomlLine r ++ d.tomlLines roles) =
        d.tomlLine r ++ d.tomlLines roles := by
      rw [tomlLine_append, r.bareKey.skipWs_eq]
    have hpos : 0 < (d.tomlLine r).length := by
      rw [tomlLine, List.length_append]
      exact Nat.add_pos_right _ (Nat.succ_pos _)
    have hne : (d.tomlLine r ++ d.tomlLines roles).isEmpty = false := by
      rw [List.isEmpty_eq_false_iff, ← List.length_pos_iff, List.length_append]
      omega
    have hshorter : (d.tomlLines roles).length < (d.tomlLine r ++ d.tomlLines roles).length := by
      rw [List.length_append]
      omega
    rw [hlines, lines?, hskip, hne, line?_tomlLine d (hfresh r List.mem_cons_self)]
    dsimp only
    rw [dif_pos hshorter, ih hnodup hrest]
    simp

/-- The saved text of distinct roles is read as their entries. -/
theorem read?_tomlLines {roles : List Role} (h : roles.Nodup) :
    read? (d.tomlLines roles) = some (roles.map d.tomlEntry) := by
  have hmark : dropByteOrderMark (d.tomlLines roles) = d.tomlLines roles := by
    cases roles with
    | nil => rfl
    | cons r roles =>
      have htext : d.tomlLines (r :: roles) = d.tomlLine r ++ d.tomlLines roles := rfl
      rw [htext, tomlLine_append]
      obtain ⟨c, cs, hfield, hc⟩ := r.bareKey.exists_cons
      rw [hfield]
      unfold dropByteOrderMark
      split
      next heq => exact absurd (List.cons.inj heq).1 (hc _ (by decide))
      next => rfl
  have hlines : lines? {} (d.tomlLines roles) =
      some { current := { entries := roles.map d.tomlEntry } } :=
    d.lines?_tomlLines h fun _ _ => rfl
  rw [read?, hmark, hlines]
  rfl

end Delimiters

end DocPath
