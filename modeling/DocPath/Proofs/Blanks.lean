import DocPath.Text.Blank
import Mathlib.Data.List.TakeWhile

/-!
# DocPath.Proofs.Blanks

Texts with blanks around them. `Padded core text` says that `text` is `core` between blanks; a text
is always padded around its trimmed form (`padded_trim`), and trimming a padded text is trimming its
core (`trim_of_padded`).
-/

namespace DocPath.Text

/-- A text of blanks only. -/
def Blank (text : List Char) : Prop := ∀ c ∈ text, isBlank c = true

/-- A text that is another one with blanks around it. -/
def Padded (core text : List Char) : Prop :=
  ∃ before after, Blank before ∧ Blank after ∧ text = before ++ core ++ after

/-! ### Blank texts -/

@[simp] theorem blank_nil : Blank [] := fun _ h => absurd h List.not_mem_nil

theorem Blank.append {a b : List Char} (ha : Blank a) (hb : Blank b) : Blank (a ++ b) := by
  intro c hc
  rcases List.mem_append.1 hc with h | h
  · exact ha c h
  · exact hb c h

theorem Blank.reverse {a : List Char} (ha : Blank a) : Blank a.reverse := by
  intro c hc
  exact ha c (List.mem_reverse.1 hc)

theorem blank_takeWhile (text : List Char) : Blank (text.takeWhile isBlank) :=
  fun _ hc => List.mem_takeWhile_imp hc

/-! ### Stripping other classes of characters -/

/-- Nothing is stripped from a text that has no character of the class at either end. -/
theorem strip_of_ends {p : Char → Bool} {first last : Char} (hfirst : p first = false)
    (hlast : p last = false) (inside : List Char) :
    strip p (first :: inside ++ [last]) = first :: inside ++ [last] := by
  have hstart : (first :: inside ++ [last]).dropWhile p = first :: inside ++ [last] :=
    List.dropWhile_cons_of_neg (by simp [hfirst])
  have hend : ([last] ++ (first :: inside).reverse).dropWhile p =
      [last] ++ (first :: inside).reverse := List.dropWhile_cons_of_neg (by simp [hlast])
  rw [strip, hstart, stripEnd, List.reverse_append, List.reverse_singleton, hend,
    List.reverse_append, List.reverse_reverse, List.reverse_singleton]

/-- Characters of the class around a text are stripped with those at its ends. -/
theorem strip_around {p : Char → Bool} {c : Char} (hc : p c = true) (text : List Char) :
    strip p (c :: text ++ [c]) = strip p text := by
  rw [strip, strip, List.cons_append, List.dropWhile_cons_of_pos hc, List.dropWhile_append]
  cases htext : text.dropWhile p with
  | nil => simp [hc]
  | cons x rest =>
    rw [if_neg (by simp), stripEnd, stripEnd, List.reverse_append,
      List.dropWhile_append_of_pos (by simpa using hc)]

/-- Nothing is stripped from a text that neither begins nor ends with a character of the class. -/
theorem strip_eq_self {p : Char → Bool} {text : List Char} (hhead : ∀ c ∈ text.head?, p c = false)
    (hlast : ∀ c ∈ text.getLast?, p c = false) : strip p text = text := by
  obtain rfl | ⟨init, last, rfl⟩ := List.eq_nil_or_concat text
  · rfl
  rw [List.concat_eq_append] at hhead hlast ⊢
  have hend : p last = false := hlast last (by simp)
  cases init with
  | nil => simp [strip, stripEnd, hend]
  | cons first inside => exact strip_of_ends (hhead first rfl) hend inside

/-! ### Blanks at the start -/

theorem takeWhile_append_trimStart (text : List Char) :
    text.takeWhile isBlank ++ trimStart text = text :=
  List.takeWhile_append_dropWhile

theorem trimStart_of_blank {a : List Char} (ha : Blank a) : trimStart a = [] :=
  List.dropWhile_eq_nil_iff.2 ha

theorem trimStart_append {a : List Char} (ha : Blank a) (text : List Char) :
    trimStart (a ++ text) = trimStart text :=
  List.dropWhile_append_of_pos ha

@[simp] theorem trimStart_trimStart (text : List Char) :
    trimStart (trimStart text) = trimStart text := by
  have h := trimStart_append (blank_takeWhile text) (trimStart text)
  rw [takeWhile_append_trimStart] at h
  exact h.symm

theorem trimStart_cons {c : Char} (hc : isBlank c = false) (text : List Char) :
    trimStart (c :: text) = c :: text :=
  List.dropWhile_cons_of_neg (by simp [hc])

/-- What stands before a character that is no blank keeps it from being trimmed. -/
theorem trimStart_append_cons {c : Char} (hc : isBlank c = false) (a rest : List Char) :
    trimStart (a ++ c :: rest) = trimStart a ++ c :: rest := by
  induction a with
  | nil => exact trimStart_cons hc rest
  | cons b a ih =>
    cases hb : isBlank b with
    | true =>
      rw [List.cons_append, trimStart, trimStart, List.dropWhile_cons_of_pos hb,
        List.dropWhile_cons_of_pos hb]
      exact ih
    | false => rw [List.cons_append, trimStart_cons hb, trimStart_cons hb, List.cons_append]

theorem isBlank_of_trimStart {text rest : List Char} {c : Char} (h : trimStart text = c :: rest) :
    isBlank c = false := by
  have hdrop : text.dropWhile isBlank = c :: rest := h
  have hhead := List.head_dropWhile_not isBlank (l := text) (by simp [hdrop])
  simp only [hdrop, List.head_cons] at hhead
  exact hhead

theorem blank_of_trimStart {text : List Char} (h : trimStart text = []) : Blank text :=
  List.dropWhile_eq_nil_iff.1 h

/-! ### Blanks at both ends -/

theorem stripEnd_append {a : List Char} (ha : Blank a) (text : List Char) :
    stripEnd isBlank (text ++ a) = stripEnd isBlank text := by
  rw [stripEnd, stripEnd, List.reverse_append, List.dropWhile_append_of_pos ha.reverse]

theorem trim_of_blank {a : List Char} (ha : Blank a) : trim a = [] := by
  have h : a.dropWhile isBlank = [] := trimStart_of_blank ha
  rw [trim, strip, h]
  rfl

theorem trim_append_left {a : List Char} (ha : Blank a) (text : List Char) :
    trim (a ++ text) = trim text := by
  rw [trim, strip, List.dropWhile_append_of_pos ha]
  rfl

theorem trim_append_right {a : List Char} (ha : Blank a) (text : List Char) :
    trim (text ++ a) = trim text := by
  cases h : trimStart text with
  | nil =>
    have htext := blank_of_trimStart h
    rw [trim_of_blank htext, trim_of_blank (htext.append ha)]
  | cons c rest =>
    have hdrop : (text ++ a).dropWhile isBlank = trimStart text ++ a := by
      rw [List.dropWhile_append, ← trimStart, h]
      rfl
    rw [trim, strip, hdrop, stripEnd_append ha]
    rfl

theorem trim_of_padded {core text : List Char} (h : Padded core text) : trim text = trim core := by
  obtain ⟨before, after, hbefore, hafter, rfl⟩ := h
  rw [trim_append_right hafter, trim_append_left hbefore]

/-- A text without its trailing blanks, and the blanks. -/
theorem exists_stripEnd (text : List Char) :
    ∃ after, Blank after ∧ text = stripEnd isBlank text ++ after := by
  refine ⟨(text.reverse.takeWhile isBlank).reverse, (blank_takeWhile _).reverse, ?_⟩
  rw [stripEnd, ← List.reverse_append, List.takeWhile_append_dropWhile, List.reverse_reverse]

theorem padded_trim (text : List Char) : Padded (trim text) text := by
  obtain ⟨after, hafter, h⟩ := exists_stripEnd (trimStart text)
  refine ⟨text.takeWhile isBlank, after, blank_takeWhile text, hafter, ?_⟩
  have htrim : trimStart text = trim text ++ after := h
  rw [List.append_assoc, ← htrim, takeWhile_append_trimStart]

@[simp] theorem trim_trim (text : List Char) : trim (trim text) = trim text :=
  (trim_of_padded (padded_trim text)).symm

/-- A text that does not begin with a blank keeps its first character. -/
theorem exists_trim_cons {c : Char} (hc : isBlank c = false) (text : List Char) :
    ∃ core after, trim (c :: text) = c :: core ∧ Blank after ∧ c :: text = c :: core ++ after := by
  obtain ⟨before, after, hbefore, hafter, h⟩ := padded_trim (c :: text)
  have hnil : before = [] := by
    cases before with
    | nil => rfl
    | cons b before =>
      obtain rfl : c = b := List.head_eq_of_cons_eq h
      rw [hbefore c List.mem_cons_self] at hc
      simp at hc
  subst hnil
  rw [List.nil_append] at h
  cases hcore : trim (c :: text) with
  | nil =>
    rw [hcore, List.nil_append] at h
    have hblank := hafter c (h ▸ List.mem_cons_self)
    rw [hc] at hblank
    simp at hblank
  | cons c' core =>
    rw [hcore] at h
    obtain rfl : c = c' := List.head_eq_of_cons_eq h
    exact ⟨core, after, rfl, hafter, h⟩

theorem isBlank_of_trim {text rest : List Char} {c : Char} (h : trim text = c :: rest) :
    isBlank c = false := by
  cases hc : isBlank c with
  | false => rfl
  | true =>
    have hlen := length_trim_le rest
    have hblank : Blank [c] := by
      intro b hb
      rw [List.mem_singleton.1 hb]
      exact hc
    have htrim : trim (c :: rest) = trim rest := trim_append_left hblank rest
    rw [← h, trim_trim, h] at htrim
    rw [← htrim, List.length_cons] at hlen
    omega

/-- A text without any blank is trimmed. -/
theorem trim_of_forall {text : List Char} (h : ∀ c ∈ text, isBlank c = false) :
    trim text = text := by
  have hdrop : ∀ t : List Char, (∀ c ∈ t, isBlank c = false) → t.dropWhile isBlank = t := by
    intro t ht
    cases t with
    | nil => rfl
    | cons c rest => exact trimStart_cons (ht c List.mem_cons_self) rest
  rw [trim, strip, hdrop text h, stripEnd, hdrop _ fun c hc => h c (List.mem_reverse.1 hc),
    List.reverse_reverse]

/-- A text with no blank at either end is trimmed. -/
theorem trim_of_ends {first last : Char} (hfirst : isBlank first = false)
    (hlast : isBlank last = false) (inside : List Char) :
    trim (first :: inside ++ [last]) = first :: inside ++ [last] :=
  strip_of_ends hfirst hlast inside

theorem padded_self (text : List Char) : Padded text text :=
  ⟨[], [], blank_nil, blank_nil, by simp⟩

/-- A trimmed text does not end with a blank. -/
theorem isBlank_of_trim_concat {init : List Char} {c : Char}
    (h : trim (init ++ [c]) = init ++ [c]) :
    isBlank c = false := by
  cases hc : isBlank c with
  | false => rfl
  | true =>
    have hblank : Blank [c] := by
      intro b hb
      rw [List.mem_singleton.1 hb]
      exact hc
    have hlen := length_trim_le init
    rw [trim_append_right hblank] at h
    rw [h, List.length_append, List.length_singleton] at hlen
    omega

/-- Blanks at the end of a text stand after its last character that is none. -/
theorem exists_of_append_blank {init rest core blanks : List Char} {c : Char}
    (hc : isBlank c = false) (hb : Blank blanks) (h : init ++ c :: rest = core ++ blanks) :
    ∃ mid, rest = mid ++ blanks ∧ core = init ++ c :: mid := by
  have hmem : c ∉ blanks := by
    intro hmem
    rw [hb c hmem] at hc
    simp at hc
  rcases List.append_eq_append_iff.1 h with ⟨mid, hcore, hrest⟩ | ⟨mid, -, hblanks⟩
  · cases mid with
    | nil =>
      rw [List.nil_append] at hrest
      exact absurd (hrest ▸ List.mem_cons_self) hmem
    | cons c' mid =>
      obtain ⟨rfl, hmid⟩ := List.cons.inj hrest
      exact ⟨mid, hmid, hcore⟩
  · refine absurd ?_ hmem
    rw [hblanks]
    exact List.mem_append_right _ List.mem_cons_self

/-- What a padded text consists of. -/
theorem Padded.mem {core text : List Char} (h : Padded core text) {c : Char} (hc : c ∈ text) :
    c ∈ core ∨ isBlank c = true := by
  obtain ⟨before, after, hbefore, hafter, rfl⟩ := h
  rcases List.mem_append.1 hc with hc | hc
  · rcases List.mem_append.1 hc with hc | hc
    · exact Or.inr (hbefore c hc)
    · exact Or.inl hc
  · exact Or.inr (hafter c hc)

end DocPath.Text
