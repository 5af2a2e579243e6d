import DocPath.FileCommand
import DocPath.Proofs.SavedText

/-!
# DocPath.Proofs.Saving

Saved delimiters load back, whole or in part (`saved_delimiters_load`). The entries of some roles
give these roles the saved characters and all others their defaults; what comes of it is then up to
the check of the delimiters. In a tree of files, a file that was written is found again under its
name, since nothing on the way to it is changed.
-/

namespace DocPath

open DocPath.Toml

namespace Delimiters

variable (d : Delimiters)

/-- The delimiters that keep the characters of some roles and have the default for the others. -/
def only (chosen : Role → Bool) : Delimiters :=
  ofFn fun r => if chosen r then d.char r else r.defaultChar

/-! ### Loading -/

theorem lookup_tomlEntry (roles : List Role) (r : Role) :
    (roles.map d.tomlEntry).lookup r.field =
      if r ∈ roles then some (d.tomlEntry r).2 else none := by
  induction roles with
  | nil => rfl
  | cons s roles ih =>
    rw [List.map_cons, tomlEntry, List.lookup_cons]
    by_cases h : r = s
    · subst h
      simp [tomlEntry]
    · have hne : (r.field == s.field) = false :=
        beq_eq_false_iff_ne.2 fun heq => h (Role.field_injective heq)
      simp [hne, h, ih]

/-- An entry gives its role the saved character, and without one the role has its default. -/
theorem roleChar?_tomlEntry (chosen : Role → Bool) (r : Role) :
    roleChar? ((Role.all.filter chosen).map d.tomlEntry) r = some ((d.only chosen).char r) := by
  have hmem : r ∈ Role.all.filter chosen ↔ chosen r = true := by
    rw [List.mem_filter]
    exact and_iff_right r.mem_all
  rw [roleChar?, lookup_tomlEntry, only, char_ofFn]
  by_cases h : chosen r = true
  · rw [if_pos (hmem.2 h), if_pos h]
    simp [tomlEntry, charOf?]
  · rw [if_neg (mt hmem.1 h), if_neg h]

theorem ofEntries?_tomlEntry (chosen : Role → Bool) :
    ofEntries? ((Role.all.filter chosen).map d.tomlEntry) = some (d.only chosen) := by
  have hchar := d.roleChar?_tomlEntry chosen
  have hall : (Role.all.all fun r =>
      (roleChar? ((Role.all.filter chosen).map d.tomlEntry) r).isSome) = true :=
    List.all_eq_true.2 fun r _ => by rw [hchar]; rfl
  rw [ofEntries?, if_pos hall]
  simp only [hchar, Option.getD_some, ofFn_char]

/-- The lines of some roles load as the delimiters that keep the characters of these roles, if they
can be told apart. -/
theorem ofToml?_tomlLines (chosen : Role → Bool) :
    ofToml? (.ofList (d.tomlLines (Role.all.filter chosen))) =
      ((d.only chosen).validate.mapError .invalid).map fun _ => d.only chosen := by
  have hall : Role.all.Nodup := by decide
  have hnodup : (Role.all.filter chosen).Nodup := List.Pairwise.filter chosen hall
  simp only [ofToml?, String.toList_ofList, d.read?_tomlLines hnodup, Option.bind_some,
    ofEntries?_tomlEntry]
  cases (d.only chosen).validate with
  | error e => rfl
  | ok => rfl

/-- All lines together keep all characters. -/
theorem ofToml?_toToml :
    ofToml? d.toToml = (d.validate.mapError .invalid).map fun _ => d := by
  have hroles : Role.all.filter (fun _ => true) = Role.all := rfl
  have hall : d.only (fun _ => true) = d := d.ofFn_char
  have hload := d.ofToml?_tomlLines fun _ => true
  rwa [hroles, hall] at hload

end Delimiters

/-! ### Files -/

namespace FileTree

variable {t t' : FileTree}

/-- A way leads to the same place when no directory comes or goes. -/
theorem follow?_congr (h : ∀ place, t'.hasDirectory place = t.hasDirectory place)
    (steps : List String) (place : Place) : t'.follow? steps place = t.follow? steps place := by
  induction steps generalizing place with
  | nil => rfl
  | cons part rest ih => rw [follow?, follow?, h, ih]

/-- A file in a place without a directory leaves the directories as they are. -/
theorem hasDirectory_put_file {place : Place} (h : t.hasDirectory place = false)
    (content : ByteArray) (other : Place) :
    (t.put place (.file content)).hasDirectory other = t.hasDirectory other := by
  rw [hasDirectory, find?_put]
  by_cases hother : other = place
  · subst hother
    rw [if_pos rfl, h]
  · rw [if_neg hother, hasDirectory]

/-- A file that was written has the content it was written with. -/
theorem content?_of_write? {name : FileName} {content : ByteArray}
    (h : t.write? name content = some t') : t'.content? name = some content := by
  unfold write? at h
  split at h
  next => cases h
  next husable =>
    split at h
    next => cases h
    next place hplace =>
      dsimp only at h
      split at h
      next => cases h
      next hfree =>
        obtain rfl := Option.some.inj h
        have hnone : t.hasDirectory place = false := by
          simp only [Bool.or_eq_true, not_or] at hfree
          exact Bool.eq_false_iff.2 hfree.1
        have hplace' : (t.put place (.file content)).place? name = some place := by
          rw [place?, follow?_congr (hasDirectory_put_file hnone content)]
          exact hplace
        rw [content?, if_neg husable, hplace', Option.bind_some, find?_put, if_pos rfl]

/-- What is saved stands as text under its name. -/
theorem text?_of_save {name : String} {d : Delimiters}
    (h : t.run (.save name d) = (.done, t')) : t'.text? name = some d.toToml := by
  have hcontent : t'.content? (.ofString name) = some d.toToml.toUTF8 := by
    unfold run at h
    dsimp only at h
    split at h
    next => cases h
    next =>
      split at h
      next t'' hwrite =>
        obtain rfl := (Prod.mk.inj h).2
        exact content?_of_write? hwrite
      next => cases h
  have hutf8 : String.fromUTF8? d.toToml.toUTF8 = some d.toToml := by
    rw [String.fromUTF8?, String.toUTF8_eq_toByteArray, dif_pos d.toToml.isValidUTF8]
    rfl
  rw [text?, hcontent, Option.bind_some, hutf8]

theorem run_load_of_ok {name s : String} {d : Delimiters} (htext : t.text? name = some s)
    (hload : Delimiters.ofToml? s = .ok d) : t.run (.load name) = (.loaded d, t) := by
  unfold run
  simp only [htext, hload]

theorem run_load_of_error {name s : String} {e : Delimiters.LoadError}
    (htext : t.text? name = some s) (hload : Delimiters.ofToml? s = .error e) :
    t.run (.load name) = (.refused e, t) := by
  unfold run
  simp only [htext, hload]

end FileTree

/-! ### Saving and loading -/

/-- The saved lines of some roles load as the delimiters that keep the characters of these roles,
with the default for all others, if those can be told apart, and otherwise fail as their check does.
Delimiters that were saved to a file are loaded from it, if they can be told apart. -/
theorem saved_delimiters_load (d : Delimiters) :
    (∀ chosen : Role → Bool,
      let text := String.ofList (d.tomlLines (Role.all.filter chosen))
      ((d.only chosen).validate = .ok () → Delimiters.ofToml? text = .ok (d.only chosen)) ∧
        ∀ e, (d.only chosen).validate = .error e →
          Delimiters.ofToml? text = .error (.invalid e)) ∧
      ∀ (t t' : FileTree) (name : String), t.run (.save name d) = (.done, t') →
        t'.text? name = some d.toToml ∧
          (d.validate = .ok () → t'.run (.load name) = (.loaded d, t')) ∧
          ∀ e, d.validate = .error e → t'.run (.load name) = (.refused (.invalid e), t') := by
  refine ⟨fun chosen => ?_, fun t t' name h => ?_⟩
  · have hload := d.ofToml?_tomlLines chosen
    refine ⟨fun hvalid => ?_, fun e hinvalid => ?_⟩
    · rw [hvalid] at hload
      exact hload
    · rw [hinvalid] at hload
      exact hload
  · have htext := FileTree.text?_of_save h
    have hload := d.ofToml?_toToml
    refine ⟨htext, fun hvalid => ?_, fun e hinvalid => ?_⟩
    · rw [hvalid] at hload
      exact FileTree.run_load_of_ok htext hload
    · rw [hinvalid] at hload
      exact FileTree.run_load_of_error htext hload

/-- Two delimiters that swap their characters load back from a file, but not one of them alone. -/
theorem saved_delimiters_load_swapped :
    let d : Delimiters := { contextMarker := '|', alternation := '@' }
    Delimiters.ofToml? (.ofList (d.tomlLines [.alternation])) =
        .error (.invalid (.duplicate '@' .contextMarker (.role .alternation))) ∧
      ∃ t', FileTree.run {} (.save "nested/syntax.toml" d) = (.done, t') ∧
        t'.run (.load "nested/syntax.toml") = (.loaded d, t') := by
  intro d
  obtain ⟨hparts, hfiles⟩ := saved_delimiters_load d
  have hvalid : d.validate = .ok () := Delimiters.validate_eq_ok_iff.2 (by decide +kernel)
  have hclash : (d.only (· == .alternation)).validate =
      .error (.duplicate '@' .contextMarker (.role .alternation)) :=
    Delimiters.validate_eq_error_iff.2 (by decide +kernel)
  have hsave : (FileTree.run {} (.save "nested/syntax.toml" d)).1 = .done := by rfl
  refine ⟨(hparts (· == .alternation)).2 _ hclash, _, Prod.ext hsave rfl, ?_⟩
  exact (hfiles _ _ _ (Prod.ext hsave rfl)).2.1 hvalid

end DocPath
