import DocPath.Proofs.Documents
import DocPath.Proofs.WalkMeaning
import Mathlib.Data.List.Induction

/-!
# DocPath.Proofs.KeyTexts

Mappings whose keys are read as text. Keys that differ as data may have the same text, and then they
share an entry: it stands where the text came first, and its value is the one that came last.

The rule is one about putting entries in turn (`Entries.names_ofPairs`, `Entries.lookup_ofPairs`).
It holds of every mapping in a document, of whatever depth: for each there is the mapping of the
datum that stands in the same place (`Datum.SamePlace`), and the texts of the latter's keys are the
names of the former (`Datum.mappings_collapse`).
-/

namespace DocPath

/-! ### Putting entries in turn -/

namespace Entries

variable {α : Type}

theorem names_put (name : String) (value : α) (entries : Entries α) :
    names (put name value entries) =
      if name ∈ names entries then names entries else names entries ++ [name] := by
  induction entries with
  | nil => rfl
  | cons e rest ih =>
    obtain ⟨k, v⟩ := e
    by_cases hk : k = name
    · simp [put, hk, names]
    · have hne : name ≠ k := Ne.symm hk
      have hput : names (put name value ((k, v) :: rest)) = k :: names (put name value rest) := by
        rw [put, if_neg hk]
        rfl
      have hnames : names ((k, v) :: rest) = k :: names rest := rfl
      rw [hput, hnames, ih]
      by_cases hmem : name ∈ names rest
      · rw [if_pos hmem, if_pos (List.mem_cons_of_mem k hmem)]
      · rw [if_neg hmem, if_neg (by simp [hne, hmem]), List.cons_append]

theorem ofPairs_concat (pairs : List (String × α)) (p : String × α) :
    ofPairs (pairs ++ [p]) = put p.1 p.2 (ofPairs pairs) :=
  List.foldl_concat ..

/-- The names are those of the pairs, each where it came first. -/
theorem names_ofPairs (pairs : List (String × α)) :
    names (ofPairs pairs) = (pairs.map Prod.fst).eraseDups := by
  induction pairs using List.reverseRecOn with
  | nil => rfl
  | append_singleton pairs p ih =>
    rw [ofPairs_concat, names_put, ih, List.map_append, List.eraseDups_append]
    by_cases h : p.1 ∈ pairs.map Prod.fst
    · rw [if_pos (List.mem_eraseDups.2 h)]
      simp [List.removeAll, h]
    · rw [if_neg (mt List.mem_eraseDups.1 h)]
      simp [List.removeAll, h, List.eraseDups_cons]

theorem nodup_names_ofPairs (pairs : List (String × α)) : (names (ofPairs pairs)).Nodup := by
  induction pairs using List.reverseRecOn with
  | nil => exact List.nodup_nil
  | append_singleton pairs p ih =>
    rw [ofPairs_concat, names_put]
    by_cases h : p.1 ∈ names (ofPairs pairs)
    · rwa [if_pos h]
    · rw [if_neg h]
      exact List.concat_eq_append ▸ List.Nodup.concat h ih

/-- A name has the value of the last pair with the name. -/
theorem lookup_ofPairs (pairs : List (String × α)) (name : String) :
    (ofPairs pairs).lookup name = pairs.reverse.lookup name := by
  induction pairs using List.reverseRecOn with
  | nil => rfl
  | append_singleton pairs p ih =>
    rw [ofPairs_concat, List.reverse_concat, List.lookup_cons]
    by_cases h : name = p.1
    · rw [h, lookup_put_self, beq_self_eq_true]
    · rw [lookup_put_of_ne h, ih, beq_eq_false_iff_ne.2 h]

theorem lookup_ofPairs_eq_some_iff {pairs : List (String × α)} {name : String} {value : α} :
    (ofPairs pairs).lookup name = some value ↔
      ∃ before after, pairs = before ++ (name, value) :: after ∧ ∀ p ∈ after, p.1 ≠ name := by
  rw [lookup_ofPairs, List.lookup_eq_some_iff]
  constructor
  · intro h
    obtain ⟨after, before, hpairs, hafter⟩ := h
    refine ⟨before.reverse, after.reverse, ?_, fun p hp => ?_⟩
    · rw [← List.reverse_reverse pairs, hpairs]
      simp
    · exact (bne_iff_ne.1 (hafter p (List.mem_reverse.1 hp))).symm
  · intro h
    obtain ⟨before, after, rfl, hafter⟩ := h
    refine ⟨after.reverse, before.reverse, by simp, fun p hp => ?_⟩
    exact bne_iff_ne.2 (hafter p (List.mem_reverse.1 hp)).symm

end Entries

namespace Datum

/-! ### The entries of one mapping -/

/-- The datum is the value of the last entry whose key has the text. -/
def LastUnder (fields : List (Datum × Datum)) (text : String) (item : Datum) : Prop :=
  ∃ before key after, fields = before ++ (key, item) :: after ∧ key.toKey = .ok text ∧
    ∀ e ∈ after, e.1.toKey ≠ .ok text

variable {fields : List (Datum × Datum)} {pairs : List (String × Value)}

/-- What a text looks up is read from the last entry whose key has the text. -/
theorem exists_lastUnder (h : List.Forall₂ (fun e p => toEntry e = .ok p) fields pairs)
    {text : String} {v : Value} (hlookup : (Entries.ofPairs pairs).lookup text = some v) :
    ∃ item, LastUnder fields text item ∧ item.toValue = .ok v := by
  obtain ⟨before, after, rfl, hlast⟩ := Entries.lookup_ofPairs_eq_some_iff.1 hlookup
  obtain ⟨⟨key, item⟩, fieldsAfter, he, hafter, hdrop⟩ :=
    List.forall₂_cons_right_iff.1 (List.forall₂_drop_append _ _ _ h)
  obtain ⟨hkey, hitem⟩ := toEntry_eq_ok_iff.1 he
  refine ⟨item, ⟨fields.take before.length, key, fieldsAfter, ?_, hkey, fun e he htext => ?_⟩,
    hitem⟩
  · rw [← hdrop, List.take_append_drop]
  · have hnamed : List.Forall₂ (fun p e => p.1 ≠ text ∧ toEntry e = .ok p) after fieldsAfter :=
      (List.forall₂_and_left _ _).2 ⟨hlast, hafter.flip⟩
    obtain ⟨p, hne, hp⟩ := exists_of_forall₂ hnamed he
    obtain ⟨hp, -⟩ := toEntry_eq_ok_iff.1 hp
    exact hne (Except.ok.inj (hp.symm.trans htext))

/-- How the entries of a mapping come from the entries of the datum that it is read from. -/
structure Collapses (fields : List (Datum × Datum)) (entries : List (String × Value)) : Prop where
  distinct : (Entries.names entries).Nodup
  /-- The names are the texts of the keys, each where it comes first. -/
  names : ∃ texts, fields.mapM (fun e => e.1.toKey) = .ok texts ∧
    Entries.names entries = texts.eraseDups
  /-- The value under a name is that of the last entry whose key has it as its text. -/
  values : ∀ text v, (text, v) ∈ entries → ∃ item, LastUnder fields text item ∧ item.toValue = .ok v

theorem collapses_ofPairs (h : List.Forall₂ (fun e p => toEntry e = .ok p) fields pairs) :
    Collapses fields (Entries.ofPairs pairs) where
  distinct := Entries.nodup_names_ofPairs pairs
  names := by
    refine ⟨pairs.map Prod.fst, ?_, Entries.names_ofPairs pairs⟩
    rw [mapM_eq_ok_iff, List.forall₂_map_right_iff]
    exact h.imp fun e p he => (toEntry_eq_ok_iff.1 he).1
  values := fun text v hmem =>
    have hdistinct := Entries.nodup_names_ofPairs pairs
    exists_lastUnder h ((Value.lookup_eq_some_iff_mem hdistinct).2 hmem)

/-! ### Every mapping of a document -/

/-- The node stands in the datum where the part stands in the document that the datum is read as.
The values of earlier entries with the same text stand nowhere in the document. -/
inductive SamePlace : Datum → Value → Datum → Value → Prop
  | here (d : Datum) (v : Value) : SamePlace d v d v
  /-- An optional value is its content. -/
  | present {content node : Datum} {v part : Value} : SamePlace content v node part →
      SamePlace (.present content) v node part
  | item {items : List Datum} {values : List Value} {i : Nat} {d node : Datum} {v part : Value} :
      items[i]? = some d → values[i]? = some v → SamePlace d v node part →
      SamePlace (.sequence items) (.sequence values) node part
  | entry {fields : List (Datum × Datum)} {entries : List (String × Value)} {text : String}
      {d node : Datum} {v part : Value} : LastUnder fields text d → (text, v) ∈ entries →
      SamePlace d v node part → SamePlace (.mapping fields) (.mapping entries) node part

/-- Every mapping in a document is read from the mapping that stands in the same place. -/
theorem exists_samePlace {d : Datum} {v : Value} (h : d.toValue = .ok v)
    {entries : List (String × Value)} (hpart : (Value.mapping entries).PartOf v) :
    ∃ fields, SamePlace d v (.mapping fields) (.mapping entries) ∧ Collapses fields entries := by
  induction d using node_induction generalizing v with
  | node d ih =>
    cases d with
    | present content =>
      rw [toValue] at h
      obtain ⟨fields, hplace, hfields⟩ := ih content List.mem_cons_self h hpart
      exact ⟨fields, .present hplace, hfields⟩
    | sequence items =>
      rw [toValue_sequence, map_eq_ok_iff] at h
      obtain ⟨values, hvalues, rfl⟩ := h
      have hread := mapM_eq_ok_iff.1 hvalues
      cases hpart with
      | item hmem hpart =>
        obtain ⟨i, hi, rfl⟩ := List.mem_iff_getElem.1 hmem
        have hi' : i < items.length := hread.length_eq ▸ hi
        obtain ⟨fields, hplace, hfields⟩ :=
          ih items[i] (List.getElem_mem hi') (hread.get hi' hi) hpart
        exact ⟨fields, .item (List.getElem?_eq_getElem hi') (List.getElem?_eq_getElem hi) hplace,
          hfields⟩
    | mapping fields =>
      rw [toValue_mapping, map_eq_ok_iff] at h
      obtain ⟨pairs, hpairs, rfl⟩ := h
      have hcollapses := collapses_ofPairs (mapM_eq_ok_iff.1 hpairs)
      cases hpart with
      | self => exact ⟨fields, .here _ _, hcollapses⟩
      | @entry text w _ hmem hpart =>
        obtain ⟨item, hlast, hitem⟩ := hcollapses.values text w hmem
        have hchild : item ∈ (mapping fields).children := by
          obtain ⟨before, key, after, rfl, -⟩ := hlast
          simp [children]
        obtain ⟨fields', hplace, hfields⟩ := ih item hchild hitem hpart
        exact ⟨fields', .entry hlast hmem hplace, hfields⟩
    | _ => cases h <;> cases hpart

/-- What a key reaches in a mapping. -/
theorem reaches_key {entries : List (String × Value)} {name : String} {v : Value}
    (hlookup : entries.lookup name = some v) :
    (∀ (h : Held) (trail : Trail), h.value = .mapping entries →
      ((Op.key name).apply h trail).1.value = v) ∧
      (Walk.start ⟨[Op.key name]⟩ (.mapping entries)).results =
        if v.isNull then [] else [.ok v] := by
  have hentry : (Value.mapping entries).entry name = v := by
    rw [Value.entry, hlookup, Option.getD_some]
  constructor
  · intro h trail hvalue
    show (h.entry name).value = v
    rw [h.value_entry, hvalue, hentry]
  · rw [Walk.results_start]
    show upToError (meaning ((Value.mapping entries).entry name) [] []) = _
    rw [hentry, meaning]
    split <;> rfl

/-- **Mappings stay well formed where keys collapse to text.** For every datum that is read as a
document, every mapping in the document, at any depth, is read from the mapping in the same place of
the datum. Its names are distinct: they are the texts of the keys, each where it comes first, and
each has the value of the last entry whose key has that text. A key with the text reaches this
value, both on its own, however the mapping is held, and as a path, unless the value is null. -/
theorem mappings_collapse {d : Datum} {v : Value} (h : d.toValue = .ok v)
    {entries : List (String × Value)} (hpart : (Value.mapping entries).PartOf v) :
    ∃ fields, SamePlace d v (.mapping fields) (.mapping entries) ∧ Collapses fields entries ∧
      ∀ text w, (text, w) ∈ entries →
        (∀ (held : Held) (trail : Trail), held.value = .mapping entries →
          ((Op.key text).apply held trail).1.value = w) ∧
        (Walk.start ⟨[Op.key text]⟩ (.mapping entries)).results =
          if w.isNull then [] else [.ok w] := by
  obtain ⟨fields, hplace, hcollapses⟩ := exists_samePlace h hpart
  refine ⟨fields, hplace, hcollapses, fun text w hmem => ?_⟩
  exact reaches_key ((Value.lookup_eq_some_iff_mem hcollapses.distinct).2 hmem)

/-- The key `1` comes as a number and as a text, `true` as a truth value and as a text. -/
theorem mappings_collapse_mixed :
    let d := Datum.sequence [.mapping [(.uint64 1, .string "a"), (.bool true, .bool false),
      (.string "1", .string "b"), (.ownedString "true", .unit)]]
    let entries := [("1", Value.string "b"), ("true", .null)]
    d.toValue = .ok (.sequence [.mapping entries]) ∧
      (Value.mapping entries).PartOf (.sequence [.mapping entries]) ∧
      (Entries.names entries).Nodup ∧
      (Walk.start ⟨[Op.key "1"]⟩ (.mapping entries)).results = [.ok (.string "b")] ∧
      (Walk.start ⟨[Op.key "true"]⟩ (.mapping entries)).results = [] := by
  intro d entries
  have hdigit : Text.Numeral.ofNat (1 : UInt64).toNat = ['1'] := by
    rw [Text.Numeral.ofNat, if_pos (by decide)]
    rfl
  have hkey : toKey (.uint64 1) = .ok "1" := by
    rw [toKey, hdigit]
  have hread : d.toValue = .ok (.sequence [.mapping entries]) := by
    rw [toValue, toValues, toValue, toEntries, hkey]
    rfl
  have hpart : (Value.mapping entries).PartOf (.sequence [.mapping entries]) :=
    .item List.mem_cons_self .self
  obtain ⟨fields, -, hcollapses, hkeys⟩ := mappings_collapse hread hpart
  have hone := hkeys "1" (.string "b") List.mem_cons_self
  have htrue := hkeys "true" .null (List.mem_cons_of_mem _ List.mem_cons_self)
  exact ⟨hread, hpart, hcollapses.distinct, hone.2, htrue.2⟩

end Datum

end DocPath
