import DocPath.Proofs.Portable

/-!
# DocPath.Proofs.QuotedDefaults

Quotation marks protect the text of a default. Every reader on the way has its own idea of them: the
scans let a quotation end at its own mark only (`quoted_quotation`), the last type delimiter is
looked for without regard to quotations, and in the end single marks are stripped from the source
before double ones (`unquote_of_quotable`). A text that does not hold the mark around it, and has no
double marks at its ends that could be stripped with single ones, gets through unchanged. So the
default is one token in every portable choice of delimiters (`spellsStep_quoted`), and can stand
wherever a step can (`quoted_default_kept`).
-/

namespace DocPath

open DocPath.Text

variable {d : Delimiters} {q : Char}

/-! ### Texts that quotation marks protect -/

/-- A mark of quotation, and a text that it can be put around. -/
inductive Quotable : Char → List Char → Prop
  | double {text : List Char} : '"' ∉ text → Quotable '"' text
  /-- Double marks at the ends would be stripped together with the single ones around them. -/
  | single {text : List Char} : '\'' ∉ text → text.head? ≠ some '"' → text.getLast? ≠ some '"' →
      Quotable '\'' text

theorem Quotable.isQuote {text : List Char} (h : Quotable q text) : isQuote q = true := by
  cases h <;> rfl

theorem Quotable.not_mem {text : List Char} (h : Quotable q text) : q ∉ text := by
  cases h <;> assumption

/-- A text without the mark around it is what is left when the marks are stripped. -/
theorem unquote_of_quotable {text : List Char} (h : Quotable q text) :
    unquote (q :: text ++ [q]) = text := by
  have hne : ∀ {mark : Char} {found : Option Char}, found ≠ some mark →
      ∀ c ∈ found, (c == mark) = false := by
    intro mark found hfound c hc
    rw [beq_eq_false_iff_ne]
    rintro rfl
    exact hfound hc
  have hself : strip (· == q) text = text := by
    refine strip_eq_self (hne fun hhead => ?_) (hne fun hlast => ?_)
    · exact h.not_mem (List.mem_of_head? hhead)
    · exact h.not_mem (List.mem_of_getLast? hlast)
  cases h with
  | double =>
    have hsingle : strip (· == '\'') ('"' :: text ++ ['"']) = '"' :: text ++ ['"'] :=
      strip_of_ends rfl rfl text
    rw [unquote, hsingle, strip_around rfl, hself]
  | single _ hhead hlast =>
    rw [unquote, strip_around rfl, hself]
    exact strip_eq_self (hne hhead) (hne hlast)

/-- A quotation of any text without its mark may stand in front of a quoted text. -/
theorem quoted_quotation {close : Char} {text rest : List Char} (hq : isQuote q = true)
    (htext : q ∉ text) (hrest : Quoted close none rest) :
    Quoted close none (q :: text ++ q :: rest) := by
  refine .opening hq ?_
  induction text with
  | nil => exact .closing hrest
  | cons c text ih =>
    rw [List.mem_cons, not_or] at htext
    exact .inner (Ne.symm htext.1) (ih htext.2)

/-! ### Quoted defaults -/

/-- The default of a text, written in quotation marks. -/
def Default.quoted (q : Char) (s : String) : Default :=
  ⟨.string s, .str, .ofList (q :: s.toList ++ [q])⟩

theorem coerce_quoted {s : String} (h : Quotable q s.toList) :
    DefaultKind.coerce .str (q :: s.toList ++ [q]) = .ok (.string s) := by
  rw [DefaultKind.coerce, unquote_of_quotable h, DefaultKind.value, String.ofList_toList]

/-- In portable delimiters, a quoted default is spelled by the text that is written for it, whatever
its text holds. -/
theorem spellsStep_quoted (hd : d.Portable) {s : String} (h : Quotable q s.toList) :
    SpellsStep d ((Default.quoted q s).render d) (.default (.quoted q s)) := by
  have hblank : isBlank q = false := by
    cases h <;> rfl
  have hspells : SpellsDefault d
      ((q :: s.toList ++ [q]) ++ d.typeDelimiter :: DefaultKind.str.name.toList) (.quoted q s) :=
    .mk (trim_of_ends hblank hblank s.toList) (padded_self _) (padded_self _) (coerce_quoted h)
  have hname : ∀ c ∈ d.typeDelimiter :: DefaultKind.str.name.toList,
      c ≠ d.defaultClose ∧ isQuote c = false := by
    refine List.forall_mem_cons.2 ⟨⟨?_, hd.isQuote_typeDelimiter⟩, fun c hc => ?_⟩
    · exact hd.bracketed .typeDelimiter (.role .defaultClose) (by decide)
    · have halnum := isAlphanum_of_mem_name .str c hc
      exact ⟨(hd.ne_of_isAlphanum .defaultClose halnum).symm,
        isQuote_of_class (p := Char.isAlphanum) (by decide) halnum⟩
  have hquoted := quoted_quotation h.isQuote h.not_mem
    (quoted_of_forall hd.isQuote_defaultClose hname)
  have htoken := SpellsStep.default hspells (by simpa using hquoted)
  have hrender : (Default.quoted q s).render d = d.defaultOpen ::
      ((q :: s.toList ++ [q]) ++ d.typeDelimiter :: DefaultKind.str.name.toList) ++
        [d.defaultClose] := by
    simp [Default.render, Default.quoted]
  rw [hrender]
  exact htoken

/-! ### Paths with a default after a key -/

/-- A key and a default after it. -/
theorem spellsSteps_key_default {name : List Char} {v : Default} (hname : KeyName d name)
    (hd : d.Legal) (hv : SpellsStep d (v.render d) (.default v)) :
    SpellsSteps d (name ++ v.render d) [.key (.ofList name), .default v] := by
  have hends : EndsKey d (v.render d) :=
    (hv.spellsSteps.endsKey_iff hd).2 (by simp [Step.isKey])
  exact .cons blank_nil (.key hname) (fun _ => hends) hv.spellsSteps

/-- A default after a key is read together with the key: at the end of a path, in front of another
segment, and in an alternative. -/
theorem compileOps_key_default (hd : d.Separable) {v : Default}
    (hv : SpellsStep d (v.render d) (.default v)) {name other : List Char} (hname : KeyName d name)
    (hother : KeyName d other) :
    compileOps d (name ++ v.render d) = .ok [.key (.ofList name), .step (.default v)] ∧
      compileOps d (name ++ v.render d ++ d.segmentDivider :: other) =
        .ok [.key (.ofList name), .step (.default v), .divider, .key (.ofList other)] ∧
      compileOps d (other ++ d.alternation :: (name ++ v.render d)) =
        .ok [.alternatives [[.key (.ofList other)], [.key (.ofList name), .default v]]] := by
  have hsteps := spellsSteps_key_default hname hd.toLegal hv
  have hkey : SpellsSteps d other [.key (.ofList other)] := (SpellsStep.key hother).spellsSteps
  refine ⟨compileOps_steps hd hsteps, ?_, ?_⟩
  · rw [compileOps_segment hd hsteps, compileOps_steps hd hkey]
    rfl
  · exact compileOps_alternation hd (.nil blank_nil) (.cons hkey (.last hsteps))
      (List.cons_ne_nil _ _) (by simp [StartsInside, Step.mayLead])

theorem ofText?_of_toList {text : String} {written : List Char} {ops : List Op}
    (htext : text.toList = written) (hops : compileOps .standard written = .ok ops) :
    Path.ofText? text = .ok ⟨ops⟩ :=
  map_eq_ok_iff.2 ⟨ops, htext ▸ hops, rfl⟩

/-- **Quotation marks protect the text of a default.** Take any text, and double marks if it holds
none, or single marks if it holds none of these and no double one at an end. Written between the
marks as a default of type `str`, it is read as this very text, with the marks in its source: after
the key of a path, in front of another segment, and in an alternative. -/
theorem quoted_default_kept {q : Char} {s : String} (h : Quotable q s.toList) :
    let source : String := .ofList (q :: s.toList ++ [q])
    let v : Default := ⟨.string s, .str, source⟩
    Path.ofText? ("a<" ++ source ++ ":str>") = .ok ⟨[.key "a", .step (.default v)]⟩ ∧
      Path.ofText? ("a<" ++ source ++ ":str>.b") =
        .ok ⟨[.key "a", .step (.default v), .divider, .key "b"]⟩ ∧
      Path.ofText? ("x|a<" ++ source ++ ":str>") =
        .ok ⟨[.alternatives [[.key "x"], [.key "a", .default v]]]⟩ := by
  intro source v
  have ha : KeyName .standard ['a'] := keyName_singleton (by decide) (by decide)
  have hb : KeyName .standard ['b'] := keyName_singleton (by decide) (by decide)
  have hx : KeyName .standard ['x'] := keyName_singleton (by decide) (by decide)
  have hrender : (Default.quoted q s).render .standard =
      '<' :: source.toList ++ [':', 's', 't', 'r', '>'] := by
    simp [Default.render, Default.quoted, source, DefaultKind.name, Delimiters.standard,
      Role.defaultChar]
  have hdefault := spellsStep_quoted Delimiters.portable_standard h
  obtain ⟨hlast, hsegment, -⟩ :=
    compileOps_key_default Delimiters.separable_standard hdefault ha hb
  obtain ⟨-, -, halternative⟩ :=
    compileOps_key_default Delimiters.separable_standard hdefault ha hx
  rw [hrender] at hlast hsegment halternative
  refine ⟨ofText?_of_toList ?_ hlast, ofText?_of_toList ?_ hsegment,
    ofText?_of_toList ?_ halternative⟩
  · simp
  · simp [Delimiters.standard, Role.defaultChar]
  · simp [Delimiters.standard, Role.defaultChar]

theorem quoted_default_kept_delimiters :
    (Quotable '"' " '>.|:int> ".toList ∧ Path.ofText? "a<\" '>.|:int> \":str>.b" =
      .ok ⟨[.key "a", .step (.default ⟨.string " '>.|:int> ", .str, "\" '>.|:int> \""⟩),
        .divider, .key "b"]⟩) ∧
    Quotable '\'' ":\".b".toList ∧ Path.ofText? "x|a<':\".b':str>" =
      .ok ⟨[.alternatives [[.key "x"],
        [.key "a", .default ⟨.string ":\".b", .str, "':\".b'"⟩]]]⟩ := by
  have hdouble : Quotable '"' " '>.|:int> ".toList := .double (by decide)
  have hsingle : Quotable '\'' ":\".b".toList := .single (by decide) (by decide) (by decide)
  exact ⟨⟨hdouble, (quoted_default_kept hdouble).2.1⟩, hsingle, (quoted_default_kept hsingle).2.2⟩

end DocPath
