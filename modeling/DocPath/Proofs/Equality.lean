import DocPath.Value.Equality
import Mathlib.Data.List.Forall2
import Mathlib.Data.List.Nodup
import Mathlib.Data.List.Perm.Subperm

/-!
# DocPath.Proofs.Equality

Equality of values, without the recursion by which it is computed. Sequences are equal item by item
(`equalItems_iff`), mappings if they have as many entries and each one of the first is found in the
second (`foundIn_iff`).

The second rule looks one way only. That equal mappings have the same names, so that a name missing
from the first is missing from the second too (`lookup_alike`), takes names that are distinct. They
are in every document that is read; `Distinct` says so of a value as a whole, and `PartOf` says what
its parts are.

Equal values with distinct names are `Alike`. Everything about them goes through one inversion
(`Alike.sameForm`), in which the order of entries no longer shows.
-/

namespace DocPath

/-- The names of entries, in order. -/
def Entries.names {α : Type} (entries : Entries α) : List String :=
  entries.map Prod.fst

namespace Value

/-- The names of every mapping in the value, at any depth, are distinct. -/
inductive Distinct : Value → Prop
  | null : Distinct .null
  | bool (b : Bool) : Distinct (.bool b)
  | number (n : Number) : Distinct (.number n)
  | string (s : String) : Distinct (.string s)
  | sequence {items : List Value} : (∀ v ∈ items, v.Distinct) → Distinct (.sequence items)
  | mapping {entries : List (String × Value)} : (Entries.names entries).Nodup →
      (∀ e ∈ entries, e.2.Distinct) → Distinct (.mapping entries)

/-- Whether a value stands anywhere in another one, which counts as standing in itself. -/
inductive PartOf (v : Value) : Value → Prop
  | self : PartOf v v
  | item {item : Value} {items : List Value} : item ∈ items → PartOf v item →
      PartOf v (.sequence items)
  | entry {name : String} {w : Value} {entries : List (String × Value)} : (name, w) ∈ entries →
      PartOf v w → PartOf v (.mapping entries)

/-! ### Equality of sequences and of mappings -/

theorem equalItems_iff {as bs : List Value} :
    equalItems as bs = true ↔ List.Forall₂ (fun a b => a.equal b = true) as bs := by
  induction as generalizing bs with
  | nil =>
    rw [List.forall₂_nil_left_iff]
    cases bs <;> simp [equalItems]
  | cons a as ih =>
    cases bs with
    | nil => simp [equalItems]
    | cons b bs => rw [equalItems, Bool.and_eq_true, ih, List.forall₂_cons]

theorem foundIn_iff {others entries : List (String × Value)} : foundIn others entries = true ↔
    ∀ e ∈ entries, ∃ other, others.lookup e.1 = some other ∧ e.2.equal other = true := by
  induction entries with
  | nil => exact ⟨fun _ => nofun, fun _ => rfl⟩
  | cons e entries ih =>
    obtain ⟨key, value⟩ := e
    rw [foundIn, Bool.and_eq_true, ih, List.forall_mem_cons]
    refine and_congr_left fun _ => ?_
    cases others.lookup key with
    | none => simp
    | some other => simp

theorem equal_mapping_iff {as bs : List (String × Value)} :
    (mapping as).equal (.mapping bs) = true ↔ as.length = bs.length ∧
      ∀ e ∈ as, ∃ other, bs.lookup e.1 = some other ∧ e.2.equal other = true := by
  rw [equal, Bool.and_eq_true, beq_iff_eq, foundIn_iff]

/-! ### Looking names up -/

theorem mem_of_lookup {entries : List (String × Value)} {name : String} {v : Value}
    (h : entries.lookup name = some v) : (name, v) ∈ entries := by
  obtain ⟨before, after, rfl, -⟩ := List.lookup_eq_some_iff.1 h
  exact List.mem_append_right _ List.mem_cons_self

theorem lookup_eq_none_iff_names {entries : List (String × Value)} {name : String} :
    entries.lookup name = none ↔ name ∉ Entries.names entries := by
  rw [List.lookup_eq_none_iff, Entries.names, List.mem_map]
  constructor
  · rintro h ⟨e, he, rfl⟩
    simpa using h e he
  · intro h e he
    rw [bne_iff_ne]
    rintro rfl
    exact h ⟨e, he, rfl⟩

/-- Where names are distinct, every entry is the one that its name looks up. -/
theorem lookup_eq_some_iff_mem {entries : List (String × Value)} (h : (Entries.names entries).Nodup)
    {name : String} {v : Value} : entries.lookup name = some v ↔ (name, v) ∈ entries := by
  refine ⟨mem_of_lookup, fun hmem => ?_⟩
  cases hw : entries.lookup name with
  | none => exact absurd (List.mem_map_of_mem hmem) (lookup_eq_none_iff_names.1 hw)
  | some w =>
    have hsame : (name, w) = (name, v) := List.inj_on_of_nodup_map h (mem_of_lookup hw) hmem rfl
    rw [(Prod.mk.inj hsame).2]

/-- Equal mappings have the same names. All names of the first are names of the second, and being
distinct they are as many. -/
theorem perm_names {as bs : List (String × Value)} (hnodup : (Entries.names as).Nodup)
    (h : (mapping as).equal (.mapping bs) = true) :
    (Entries.names as).Perm (Entries.names bs) := by
  obtain ⟨hlength, hfound⟩ := equal_mapping_iff.1 h
  have hsubset : Entries.names as ⊆ Entries.names bs := by
    intro name hname
    obtain ⟨e, he, rfl⟩ := List.mem_map.1 hname
    obtain ⟨other, hother, -⟩ := hfound e he
    exact List.mem_map.2 ⟨_, mem_of_lookup hother, rfl⟩
  refine (hnodup.subperm hsubset).perm_of_length_le (Nat.le_of_eq ?_)
  rw [Entries.names, Entries.names, List.length_map, List.length_map, hlength]

/-! ### Values that are alike -/

/-- Equal values, with distinct names in every mapping of the first. -/
def Alike (v w : Value) : Prop :=
  v.Distinct ∧ v.equal w = true

theorem alike_null : Alike .null .null := ⟨.null, rfl⟩

/-- In equal mappings, every name has alike values, or none in both. -/
theorem lookup_alike {as bs : List (String × Value)} (hdistinct : (mapping as).Distinct)
    (h : (mapping as).equal (.mapping bs) = true) (name : String) :
    Option.Rel Alike (as.lookup name) (bs.lookup name) := by
  cases hdistinct with
  | mapping hnodup hentries =>
    cases hv : as.lookup name with
    | none =>
      have hnone : bs.lookup name = none := by
        rw [lookup_eq_none_iff_names, ← (perm_names hnodup h).mem_iff, ← lookup_eq_none_iff_names]
        exact hv
      rw [hnone]
      exact .none
    | some v =>
      have hmem := mem_of_lookup hv
      obtain ⟨w, hw, heq⟩ := (equal_mapping_iff.1 h).2 _ hmem
      rw [hw]
      exact .some ⟨hentries _ hmem, heq⟩

/-- Sequences of alike values are alike. -/
theorem Alike.sequence {as bs : List Value} (h : List.Forall₂ Alike as bs) :
    Alike (.sequence as) (.sequence bs) := by
  refine ⟨.sequence fun v hv => ?_, ?_⟩
  · induction h with
    | nil => cases hv
    | cons hab _ ih =>
      rcases List.mem_cons.1 hv with rfl | hv
      · exact hab.1
      · exact ih hv
  · rw [equal, equalItems_iff]
    exact h.imp fun _ _ hab => hab.2

/-- The forms that two alike values have together. -/
inductive SameForm : Value → Value → Prop
  | null : SameForm .null .null
  | bool (b : Bool) : SameForm (.bool b) (.bool b)
  | integer (n : Int64) : SameForm (.number (.integer n)) (.number (.integer n))
  | float {x y : Binary64} : x.equal y = true →
      SameForm (.number (.float x)) (.number (.float y))
  | string (s : String) : SameForm (.string s) (.string s)
  | sequence {as bs : List Value} : List.Forall₂ Alike as bs →
      SameForm (.sequence as) (.sequence bs)
  /-- The order of the entries does not matter. -/
  | mapping {as bs : List (String × Value)} :
      (∀ name, Option.Rel Alike (as.lookup name) (bs.lookup name)) →
      SameForm (.mapping as) (.mapping bs)

/-- Alike values are of the same form, and alike in their parts. -/
theorem Alike.sameForm {v w : Value} (h : Alike v w) : SameForm v w := by
  obtain ⟨hdistinct, heq⟩ := h
  cases hdistinct with
  | null =>
    cases w with
    | null => exact .null
    | _ => simp [equal] at heq
  | bool b =>
    cases w with
    | bool c =>
      obtain rfl : b = c := by simpa [equal] using heq
      exact .bool b
    | _ => simp [equal] at heq
  | number m =>
    cases w with
    | number n =>
      rw [equal] at heq
      cases m with
      | integer m =>
        cases n with
        | integer n =>
          obtain rfl : m = n := by simpa [Number.equal] using heq
          exact .integer m
        | float y => simp [Number.equal] at heq
      | float x =>
        cases n with
        | integer n => simp [Number.equal] at heq
        | float y => exact .float heq
    | _ => simp [equal] at heq
  | string s =>
    cases w with
    | string t =>
      obtain rfl : s = t := by simpa [equal] using heq
      exact .string s
    | _ => simp [equal] at heq
  | @sequence as hitems =>
    cases w with
    | sequence bs =>
      rw [equal, equalItems_iff] at heq
      exact .sequence ((List.forall₂_and_left _ _).2 ⟨hitems, heq⟩)
    | _ => simp [equal] at heq
  | mapping hnodup hentries =>
    cases w with
    | mapping bs => exact .mapping (lookup_alike (.mapping hnodup hentries) heq)
    | _ => simp [equal] at heq

theorem Alike.isNull_eq {v w : Value} (h : Alike v w) : v.isNull = w.isNull := by
  cases h.sameForm <;> rfl

theorem Alike.isSequence_eq {v w : Value} (h : Alike v w) : v.isSequence = w.isSequence := by
  cases h.sameForm <;> rfl

theorem Alike.kindName_eq {v w : Value} (h : Alike v w) : v.kindName = w.kindName := by
  cases h.sameForm <;> rfl

end Value

end DocPath
