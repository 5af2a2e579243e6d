import DocPath.Proofs.ByteOffsets
import DocPath.Proofs.Fragments
import Mathlib.Data.Nat.PSub

/-!
# DocPath.Proofs.CompileEnds

Compiling ends, whatever the text. The functions with names in `Within?` are the compiler as it runs
on a text in memory: it looks for an offset and cuts the text there, subtracts, and goes round its
loops. An `Attempt` gives up at an offset where the text cannot be cut, below zero, and when it runs
out of turns. It never does (`compile_ends`): it finishes with what `compileOps` says, on a budget
that the length of the text is enough for.

Each function `Finishes` with its twin on characters. What keeps the two loops going is in the
lemmas about the twins: a turn leaves a shorter text (`length_lt_of_turn`), since a key is only read
where no other step begins, and alternatives are shorter than what was split into them
(`length_lt_of_turn_alternation`).
-/

namespace DocPath

open DocPath.Text

variable {d : Delimiters} {segment : List Char} {isLast : Bool}

/-! ### Attempts -/

/-- An attempt to compile, which may give up before it has an outcome. -/
abbrev Attempt (α : Type) := ExceptT CompileError Option α

namespace Attempt

variable {α β : Type} {x : Attempt α} {f : α → Attempt β}

/-- The attempt that gives up. -/
def giveUp : Attempt α := ExceptT.mk none

/-- The attempt does not give up, and this is its outcome. -/
def Finishes (x : Attempt α) (outcome : Except CompileError α) : Prop := x.run = some outcome

namespace Finishes

variable {outcome : Except CompileError α} {outcome' : Except CompileError β}

theorem pure (a : α) : Finishes (Pure.pure a) (.ok a) := rfl

theorem of_except (outcome : Except CompileError α) : Finishes (liftM outcome) outcome := rfl

theorem bind_ok {a : α} (hx : x.Finishes (.ok a)) (hf : (f a).Finishes outcome') :
    Finishes (x >>= f) outcome' := by
  rw [Finishes, ExceptT.run_bind, show x.run = some (.ok a) from hx]
  exact hf

theorem bind_error {e : CompileError} (hx : x.Finishes (.error e)) :
    Finishes (x >>= f) (.error e) := by
  rw [Finishes, ExceptT.run_bind, show x.run = some (.error e) from hx]
  rfl

/-- Attempts in a row finish if each does; the later ones are made where the earlier succeed. -/
theorem bind {g : α → Except CompileError β} (hx : x.Finishes outcome)
    (hf : ∀ a, (f a).Finishes (g a)) : Finishes (x >>= f) (outcome >>= g) := by
  cases outcome with
  | error e => exact hx.bind_error
  | ok a => exact hx.bind_ok (hf a)

theorem map (g : α → β) (hx : x.Finishes outcome) :
    Finishes (x >>= fun a => Pure.pure (g a)) (outcome.map g) := by
  cases outcome with
  | error e => exact hx.bind_error
  | ok a => exact hx.bind_ok rfl

/-- An attempt goes on with what is there. -/
theorem bind_some {y : Option α} {a : α} (hy : y = some a) (hf : (f a).Finishes outcome') :
    Finishes (liftM y >>= f) outcome' := by
  rw [hy]
  exact hf

theorem mapM {g : α → Except CompileError β} {items : List α}
    (h : ∀ a ∈ items, (f a).Finishes (g a)) : Finishes (items.mapM f) (items.mapM g) := by
  induction items with
  | nil => exact pure []
  | cons a items ih =>
    obtain ⟨ha, hitems⟩ := List.forall_mem_cons.1 h
    rw [List.mapM_cons, List.mapM_cons]
    exact ha.bind fun b => (ih hitems).bind fun bs => pure (b :: bs)

end Finishes

end Attempt

/-! ### Turns -/

/-- Reads a bracket, which a text begins with, and what it holds. -/
def readBracketWithin? (closing : Char) (quoted : Bool) (text : List Char)
    (read : String → List Char → Except CompileError Step) : Attempt Turn := do
  match ← bracketWithin? closing quoted text with
  | none => throw (.malformed (.ofList text) (.unclosed closing))
  | some (bracketed, after) =>
    let s ← read (.ofList bracketed) bracketed.tail.dropLast
    return .step s after

/-- Reads the step at the head of a text, by offsets. -/
def turnWithin? (d : Delimiters) (segment : List Char) (isLast : Bool) (head : Char)
    (rest : List Char) : Attempt Turn :=
  if head = d.contextMarker then do
    let (_, after) ← cutAt? head.utf8Size rest
    return .step .capture after
  else if head = d.indexOpen then
    readBracketWithin? d.indexClose false rest fun fragment inside =>
      match readIndex d inside with
      | .ok i => .ok (.index i)
      | .error fault => .error (.malformed fragment fault)
  else if head = d.defaultOpen then
    readBracketWithin? d.defaultClose true rest fun fragment inside =>
      (readDefault d fragment inside).map .default
  else if head = d.anyEntryOpen then
    readBracketWithin? d.anyEntryClose false rest fun fragment inside =>
      if trim inside = [d.wildcard] then .ok .anyEntry
      else .error (.malformed fragment (.notAnyEntry d.anyEntryOpen d.wildcard d.anyEntryClose))
  else do
    let parts ← splitWithin? d d.alternation rest
    if 1 < parts.length then
      if isLast then return .alternation parts
      else throw (.misplacedAlternation (.ofList segment))
    else if head = d.continuation ∨ head = d.segmentDivider then do
      let (_, after) ← cutAt? head.utf8Size rest
      return .step .divider after
    else do
      -- Were the head itself an end of keys, this would cut at zero and the loop would not go on.
      let (name, after) ← cutAt? (offsetOf (d.keyEnds.contains ·) rest) rest
      return .step (.key (.ofList (trim name))) after

theorem readBracketWithin?_finishes {opening closing : Char} {quoted : Bool} {tail : List Char}
    {read : String → List Char → Except CompileError Step} :
    (readBracketWithin? closing quoted (opening :: tail) read).Finishes
      (readBracket opening closing quoted tail read) := by
  rw [readBracketWithin?, bracketWithin?_eq, readBracket]
  cases closing? closing quoted none tail with
  | none => rfl
  | some found =>
    obtain ⟨inside, after⟩ := found
    have hinside : (opening :: inside ++ [closing]).tail.dropLast = inside := by
      rw [List.cons_append, List.tail_cons, List.dropLast_concat]
    show (liftM (read (.ofList (opening :: inside ++ [closing])) _) >>= fun s =>
      pure (Turn.step s after) : Attempt Turn).Finishes _
    rw [hinside]
    dsimp only [Option.map_some]
    cases read (.ofList (opening :: inside ++ [closing])) inside with
    | error e => rfl
    | ok s => rfl

/-- A turn by offsets does what a turn does. -/
theorem turnWithin?_finishes (d : Delimiters) (segment : List Char) (isLast : Bool) (head : Char)
    (tail : List Char) : (turnWithin? d segment isLast head (head :: tail)).Finishes
      (turn d segment isLast head tail) := by
  rw [turnWithin?]
  by_cases hcontext : head = d.contextMarker
  · rw [turn, if_pos hcontext, if_pos hcontext, cutAt?_utf8Size]
    rfl
  by_cases hindex : head = d.indexOpen
  · rw [turn, if_neg hcontext, if_neg hcontext, if_pos hindex, if_pos hindex, hindex]
    exact readBracketWithin?_finishes
  by_cases hdefault : head = d.defaultOpen
  · rw [turn, if_neg hcontext, if_neg hcontext, if_neg hindex, if_neg hindex, if_pos hdefault,
      if_pos hdefault, hdefault]
    exact readBracketWithin?_finishes
  by_cases hany : head = d.anyEntryOpen
  · rw [turn, if_neg hcontext, if_neg hcontext, if_neg hindex, if_neg hindex, if_neg hdefault,
      if_neg hdefault, if_pos hany, if_pos hany, hany]
    exact readBracketWithin?_finishes
  have hleads : head ∉ d.leads := by
    rw [mem_leads_iff, not_or, not_or, not_or]
    exact ⟨hcontext, hindex, hdefault, hany⟩
  rw [if_neg hcontext, if_neg hindex, if_neg hdefault, if_neg hany, turn_of_not_leads hleads]
  refine Attempt.Finishes.bind_some (splitWithin?_eq d d.alternation (head :: tail)) ?_
  by_cases hparts : (split d d.alternation (head :: tail)).2 = []
  · have hone : ¬ 1 < ((split d d.alternation (head :: tail)).1 ::
        (split d d.alternation (head :: tail)).2).length := by
      rw [hparts]
      exact Nat.lt_irrefl 1
    rw [if_neg hone, if_neg (not_not_intro hparts)]
    by_cases hdivider : head = d.continuation ∨ head = d.segmentDivider
    · rw [if_pos hdivider, if_pos hdivider, cutAt?_utf8Size]
      rfl
    · -- All that ends a key begins a step of its own, so the name has the head at least.
      have hend : (!d.keyEnds.contains head) = true := by
        simpa using fun h => (mem_keyEnds_iff.1 h).elim hleads hdivider
      have hcut := cutAt?_offsetOf (d.keyEnds.contains ·) (head :: tail)
      rw [List.takeWhile_cons, List.dropWhile_cons, if_pos hend, if_pos hend] at hcut
      rw [if_neg hdivider, if_neg hdivider, hcut]
      rfl
  · have hmany : 1 < ((split d d.alternation (head :: tail)).1 ::
        (split d d.alternation (head :: tail)).2).length :=
      Nat.succ_lt_succ (List.length_pos_of_ne_nil hparts)
    rw [if_pos hmany, if_pos hparts]
    cases isLast <;> rfl

/-- A turn that reads a step leaves less of the text, however it was cut. -/
theorem turnWithin?_shortens {rest tail after : List Char} {head : Char} {s : Step}
    (hrest : trimStart rest = head :: tail)
    (h : (turnWithin? d segment isLast head (head :: tail)).Finishes (.ok (.step s after))) :
    after <:+ rest ∧ after.length < rest.length := by
  have hturn : turn d segment isLast head tail = .ok (.step s after) :=
    Option.some.inj ((turnWithin?_finishes d segment isLast head tail).symm.trans h)
  have hsuffix := suffix_of_trimStart hrest
  exact ⟨(suffix_of_turn hturn).trans hsuffix,
    Nat.lt_of_lt_of_le (length_lt_of_turn hturn) hsuffix.length_le⟩

/-! ### Segments -/

/-- The alternation between the paths that texts spell; `compile` compiles each. -/
def alternationWithin? (compile : List Char → Attempt (List Op)) (parts : List (List Char)) :
    Attempt Op := do
  let paths ← parts.mapM fun part => compile (trim part)
  Op.ofPaths? (paths.map Path.mk)

/-- Compiles the rest of a segment in at most so many turns. -/
def compileSegmentWithin? (d : Delimiters) (compile : List Char → Attempt (List Op))
    (segment : List Char) (isLast : Bool) : (turns : Nat) → List Char → Attempt (List Op)
  | 0, _ => .giveUp
  | turns + 1, rest =>
    match trimStart rest with
    | [] => return []
    | head :: tail => do
      match ← turnWithin? d segment isLast head (head :: tail) with
      | .step s after =>
        let ops ← compileSegmentWithin? d compile segment isLast turns after
        return .step s :: ops
      | .alternation parts =>
        let op ← alternationWithin? compile parts
        return [op]

/-- Compiles segments in order, from a number on, with a divider after each but the last. -/
def compileSegmentsWithin? (d : Delimiters) (compile : List Char → Attempt (List Op))
    (turns last : Nat) : (number : Nat) → List (List Char) → Attempt (List Op)
  | _, [] => return []
  | number, segment :: segments => do
    let ops ←
      compileSegmentWithin? d compile (trim segment) (number == last) turns (trim segment)
    let following ← compileSegmentsWithin? d compile turns last (number + 1) segments
    return ops ++ (if number < last then [.divider] else []) ++ following

section

variable {compile : List Char → Attempt (List Op)} {bound turns : Nat}

/-- Only the last segment has alternatives. -/
theorem alternatives_eq_nil_of_scanSegment {rest : List Char} {o : Outline}
    (h : scanSegment d segment false rest = .ok o) : o.alternatives = [] := by
  fun_induction scanSegment d segment false rest generalizing o with
  | case1 => rw [← Except.ok.inj h]
  | case2 => cases h
  | case3 rest head tail _ parts hturn => cases (turn_alternation_iff.1 hturn).2.1
  | case4 => cases h
  | case5 rest head tail _ s after _ o' ho' ih =>
    have hnone : o'.alternatives = [] := ih ho'
    rw [← Except.ok.inj h]
    exact hnone

theorem Outline.toOps?_of_alternatives {parts : List (List Char)} (h : parts ≠ []) :
    Outline.toOps? d ⟨[], parts⟩ = (alternation? d parts).map ([·]) := by
  rw [Outline.toOps?, if_neg (by simpa using h)]
  rfl

theorem alternationWithin?_finishes {parts : List (List Char)}
    (hcompile : ∀ part, part.length < bound → (compile part).Finishes (compileOps d part))
    (hparts : ∀ part ∈ parts, part.length < bound) :
    (alternationWithin? compile parts).Finishes (alternation? d parts) :=
  (Attempt.Finishes.mapM fun part hpart =>
    hcompile _ (Nat.lt_of_le_of_lt (length_trim_le part) (hparts part hpart))).bind
      fun _ => .of_except _

/-- With a turn more than the rest has characters, the loop over a segment comes to its end. -/
theorem compileSegmentWithin?_finishes {rest : List Char}
    (hcompile : ∀ part, part.length < bound → (compile part).Finishes (compileOps d part))
    (hbound : rest.length ≤ bound) (hturns : rest.length < turns) :
    (compileSegmentWithin? d compile segment isLast turns rest).Finishes
      (scanSegment d segment isLast rest >>= Outline.toOps? d) := by
  induction turns generalizing rest with
  | zero => exact absurd hturns (Nat.not_lt_zero _)
  | succ turns ih =>
    rw [compileSegmentWithin?]
    cases hrest : trimStart rest with
    | nil =>
      rw [scanSegment_of_blank hrest]
      exact .pure []
    | cons head tail =>
      have hle : (head :: tail).length ≤ rest.length := (suffix_of_trimStart hrest).length_le
      have hwithin := turnWithin?_finishes d segment isLast head tail
      cases hturn : turn d segment isLast head tail with
      | error e =>
        rw [scanSegment_of_failure hrest hturn]
        rw [hturn] at hwithin
        exact hwithin.bind_error
      | ok read =>
        rw [hturn] at hwithin
        refine hwithin.bind_ok ?_
        cases read with
        | step s after =>
          have hlt := length_lt_of_turn hturn
          have ih : (compileSegmentWithin? d compile segment isLast turns after).Finishes
              (scanSegment d segment isLast after >>= Outline.toOps? d) := ih (by omega) (by omega)
          rw [scanSegment_of_step hrest hturn]
          cases hafter : scanSegment d segment isLast after with
          | error e =>
            rw [hafter] at ih
            exact ih.bind_error
          | ok o =>
            rw [hafter] at ih
            show Attempt.Finishes _ (Outline.toOps? d ⟨[s] ++ o.steps, o.alternatives⟩)
            rw [Outline.toOps?_append]
            exact ih.map (.step s :: ·)
        | alternation parts =>
          obtain ⟨-, -, -, hparts⟩ := turn_alternation_iff.1 hturn
          have hshort : ∀ part ∈ parts, part.length < bound := by
            intro part hpart
            have hlt := length_lt_of_turn_alternation hturn hpart
            omega
          have hne : parts ≠ [] := hparts ▸ List.cons_ne_nil _ _
          rw [scanSegment_of_alternation hrest hturn]
          show Attempt.Finishes _ (Outline.toOps? d ⟨[], parts⟩)
          rw [Outline.toOps?_of_alternatives hne]
          exact (alternationWithin?_finishes hcompile hshort).map ([·])

/-- The segments are compiled as they are read, if the last one has the number that is given. -/
theorem compileSegmentsWithin?_finishes {segment : List Char} {others : List (List Char)}
    {number last : Nat}
    (hcompile : ∀ part, part.length < bound → (compile part).Finishes (compileOps d part))
    (hbound : ∀ s ∈ segment :: others, s.length ≤ bound) (hturns : bound < turns)
    (hlast : number + others.length = last) :
    (compileSegmentsWithin? d compile turns last number (segment :: others)).Finishes
      (scanSegments d segment others >>= Outline.toOps? d) := by
  have htrimmed : ∀ (s : List Char) (isLast : Bool), s.length ≤ bound →
      (compileSegmentWithin? d compile (trim s) isLast turns (trim s)).Finishes
        (scanSegment d (trim s) isLast (trim s) >>= Outline.toOps? d) := by
    intro s isLast hs
    have hle := Nat.le_trans (length_trim_le s) hs
    exact compileSegmentWithin?_finishes hcompile hle (Nat.lt_of_le_of_lt hle hturns)
  induction others generalizing segment number with
  | nil =>
    have hsegment := htrimmed segment true (hbound segment List.mem_cons_self)
    obtain rfl : number = last := hlast
    rw [compileSegmentsWithin?, compileSegmentsWithin?, beq_self_eq_true, scanSegments,
      if_neg (Nat.lt_irrefl number)]
    have happend : ∀ ops : List Op, (do
        let following ← (Pure.pure [] : Attempt (List Op))
        Pure.pure (ops ++ [] ++ following)) = (Pure.pure ops : Attempt (List Op)) := by
      intro ops
      rw [pure_bind, List.append_nil, List.append_nil]
    simp only [happend, bind_pure]
    exact hsegment
  | cons next others ih =>
    have hsegment := htrimmed segment false (hbound segment List.mem_cons_self)
    have hlt : number < last := by
      rw [← hlast, List.length_cons]
      omega
    have hnext : number + 1 + others.length = last := by
      rw [← hlast, List.length_cons]
      omega
    have hothers := ih (fun s hs => hbound s (List.mem_cons_of_mem segment hs)) hnext
    rw [compileSegmentsWithin?, beq_false_of_ne (Nat.ne_of_lt hlt), if_pos hlt, scanSegments]
    cases hfirst : scanSegment d (trim segment) false (trim segment) with
    | error e =>
      rw [hfirst] at hsegment
      exact hsegment.bind_error
    | ok o =>
      have hnone : Outline.toOps? d o = .ok (o.steps.map .step) := by
        rw [Outline.toOps?, alternatives_eq_nil_of_scanSegment hfirst]
        rfl
      rw [hfirst] at hsegment
      change Attempt.Finishes _ (Outline.toOps? d o) at hsegment
      rw [hnone] at hsegment
      refine hsegment.bind_ok ?_
      cases hrest : scanSegments d next others with
      | error e =>
        rw [hrest] at hothers
        exact hothers.bind_error
      | ok rest =>
        rw [hrest] at hothers
        show Attempt.Finishes _
          (Outline.toOps? d ⟨o.steps ++ .divider :: rest.steps, rest.alternatives⟩)
        rw [Outline.toOps?_append_divider]
        simp only [List.append_assoc, List.singleton_append]
        exact hothers.map _

end

/-! ### Whole texts -/

/-- Compiles a text by its segments; `compile` compiles the texts of alternatives. -/
def compileTextWithin? (d : Delimiters) (compile : List Char → Attempt (List Op)) (turns : Nat)
    (text : List Char) : Attempt (List Op) := do
  let segments ← splitWithin? d d.segmentDivider text
  let last ← segments.length.ppred
  compileSegmentsWithin? d compile turns last 0 segments

/-- Compiles a text, and the texts of its alternatives with one less to spend. -/
def compileWithin? (d : Delimiters) : (budget : Nat) → List Char → Attempt (List Op)
  | 0, _ => .giveUp
  | budget + 1, text => compileTextWithin? d (compileWithin? d budget) (budget + 1) text

/-- What is compiled within a text is shorter, so `compile` has to finish on nothing else. -/
theorem compileTextWithin?_finishes {compile : List Char → Attempt (List Op)} {turns : Nat}
    {text : List Char} (hturns : text.length < turns)
    (hcompile : ∀ part, part.length < text.length → (compile part).Finishes (compileOps d part)) :
    (compileTextWithin? d compile turns text).Finishes (compileOps d text) := by
  obtain ⟨hfirst, -, hothers⟩ := length_splitFrom d d.segmentDivider (.outside 0) text
  have hbound : ∀ s ∈ (split d d.segmentDivider text).1 :: (split d d.segmentDivider text).2,
      s.length ≤ text.length :=
    List.forall_mem_cons.2 ⟨hfirst, fun s hs => Nat.le_of_lt (hothers s hs)⟩
  rw [compileOps_eq]
  refine Attempt.Finishes.bind_some (splitWithin?_eq d d.segmentDivider text) ?_
  refine Attempt.Finishes.bind_some Nat.ppred_succ ?_
  exact compileSegmentsWithin?_finishes hcompile hbound hturns (Nat.zero_add _)

/-- So a budget that is more than the length of the text is enough. -/
theorem compileWithin?_finishes {budget : Nat} {text : List Char} (h : text.length < budget) :
    (compileWithin? d budget text).Finishes (compileOps d text) := by
  induction budget generalizing text with
  | zero => exact absurd h (Nat.not_lt_zero _)
  | succ budget ih =>
    exact compileTextWithin?_finishes h fun part hpart =>
      ih (Nat.lt_of_lt_of_le hpart (Nat.le_of_lt_succ h))

example : (compileWithin? .standard 1 ['a']).run = none := rfl

/-- **Compiling ends.** Whatever the delimiters and the text, with more to spend than the text has
characters the compiler by offsets finishes with what `compileOps` says. So every cut that it makes
is between two characters of its text, and no loop goes on for ever:

* a turn of the loop over a segment that reads a step leaves a proper end of the rest;
* a text is compiled by compiling shorter ones, as `compile` may do anything on all others;
* a split gives at least one part, so that the last segment has a number. -/
theorem compile_ends (d : Delimiters) :
    (∀ text budget, text.length < budget →
      (compileWithin? d budget text).Finishes (compileOps d text)) ∧
    (∀ segment isLast rest head tail s after, trimStart rest = head :: tail →
      (turnWithin? d segment isLast head (head :: tail)).Finishes (.ok (.step s after)) →
        after <:+ rest ∧ after.length < rest.length) ∧
    (∀ text turns compile, text.length < turns →
      (∀ part, part.length < text.length → (compile part).Finishes (compileOps d part)) →
        (compileTextWithin? d compile turns text).Finishes (compileOps d text)) ∧
    ∀ separator text, ∃ parts, splitWithin? d separator text = some parts ∧ parts ≠ [] := by
  refine ⟨fun text budget => compileWithin?_finishes, fun segment isLast rest head tail s after =>
    turnWithin?_shortens, fun text turns compile => compileTextWithin?_finishes, ?_⟩
  exact fun separator text => ⟨_, splitWithin?_eq d separator text, List.cons_ne_nil _ _⟩

end DocPath
