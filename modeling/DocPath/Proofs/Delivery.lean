import DocPath.Datum
import DocPath.Proofs.Equality

/-!
# DocPath.Proofs.Delivery

Documents as raw data and back. `Value.toDatum` is the datum that a document is written out as. A
reader delivers it in the same form, except that it may give an integer that is not negative as an
unsigned word, and may give a text away (`Datum.Delivered`). Whatever is delivered, the document
made of it is the one that was written, entry for entry (`toValue_delivered`).
-/

namespace DocPath

/-! ### Writing -/

namespace Value

mutual

/-- The datum of a document. Integers are signed words and names are texts. -/
def toDatum : Value → Datum
  | null => .unit
  | bool b => .bool b
  | number (.integer n) => .int64 n
  | number (.float x) => .float64 x
  | string s => .string s
  | sequence items => .sequence (toData items)
  | mapping entries => .mapping (toNamedData entries)

/-- The data of a sequence's items. -/
def toData : List Value → List Datum
  | [] => []
  | v :: rest => toDatum v :: toData rest

/-- The data of a mapping's entries. -/
def toNamedData : List (String × Value) → List (Datum × Datum)
  | [] => []
  | (name, v) :: rest => (.string name, toDatum v) :: toNamedData rest

end

end Value

/-! ### Delivering -/

namespace Datum

open Value

mutual

/-- What a reader may deliver for a datum that a document is written out as. -/
inductive Delivered : Datum → Datum → Prop
  | unit : Delivered .unit .unit
  | bool (b : Bool) : Delivered (.bool b) (.bool b)
  | signed (n : Int64) : Delivered (.int64 n) (.int64 n)
  /-- An integer that is not negative, as an unsigned word. -/
  | unsigned {n : Int64} {w : UInt64} : n.toInt = w.toNat → Delivered (.int64 n) (.uint64 w)
  | float (x : Binary64) : Delivered (.float64 x) (.float64 x)
  | string (s : String) : Delivered (.string s) (.string s)
  /-- A text that the reader gives away, be it a key or not. -/
  | owned (s : String) : Delivered (.string s) (.ownedString s)
  | sequence {items items' : List Datum} : DeliveredItems items items' →
      Delivered (.sequence items) (.sequence items')
  | mapping {entries entries' : List (Datum × Datum)} : DeliveredEntries entries entries' →
      Delivered (.mapping entries) (.mapping entries')

/-- What a reader may deliver for the items of a sequence. -/
inductive DeliveredItems : List Datum → List Datum → Prop
  | nil : DeliveredItems [] []
  | cons {d d' : Datum} {rest rest' : List Datum} : Delivered d d' → DeliveredItems rest rest' →
      DeliveredItems (d :: rest) (d' :: rest')

/-- What a reader may deliver for the entries of a mapping. -/
inductive DeliveredEntries : List (Datum × Datum) → List (Datum × Datum) → Prop
  | nil : DeliveredEntries [] []
  | cons {key key' d d' : Datum} {rest rest' : List (Datum × Datum)} : Delivered key key' →
      Delivered d d' → DeliveredEntries rest rest' →
      DeliveredEntries ((key, d) :: rest) ((key', d') :: rest')

end

mutual

/-- A datum may be delivered as it was written. -/
theorem delivered_toDatum : (v : Value) → v.toDatum.Delivered v.toDatum
  | .null => .unit
  | .bool b => .bool b
  | .number (.integer n) => .signed n
  | .number (.float x) => .float x
  | .string s => .string s
  | .sequence items => .sequence (deliveredItems_toData items)
  | .mapping entries => .mapping (deliveredEntries_toNamedData entries)

theorem deliveredItems_toData : (items : List Value) → DeliveredItems (toData items) (toData items)
  | [] => .nil
  | v :: rest => .cons (delivered_toDatum v) (deliveredItems_toData rest)

theorem deliveredEntries_toNamedData : (entries : List (String × Value)) →
    DeliveredEntries (toNamedData entries) (toNamedData entries)
  | [] => .nil
  | (name, v) :: rest =>
    .cons (.string name) (delivered_toDatum v) (deliveredEntries_toNamedData rest)

end

/-! ### Reading back -/

/-- An unsigned word with the value of a signed one is read as that one. -/
theorem numberOfUInt64_eq {n : Int64} {w : UInt64} (h : n.toInt = w.toNat) :
    numberOfUInt64 w = .integer n := by
  have hlt : w.toNat < UInt64.size / 2 := by
    have hle := n.toInt_lt
    simp only [UInt64.size]
    omega
  have hword : Int64.ofNat w.toNat = n := by
    rw [← Int64.ofInt_eq_ofNat, ← h, Int64.ofInt_toInt]
  rw [numberOfUInt64, if_pos hlt, hword]

mutual

/-- Whatever is delivered for a document is read as the document. -/
theorem toValue_eq_of_delivered :
    (v : Value) → v.Distinct → {d : Datum} → v.toDatum.Delivered d → d.toValue = .ok v
  | .null, _, _, h => by
    rw [toDatum] at h
    cases h
    rfl
  | .bool b, _, _, h => by
    rw [toDatum] at h
    cases h
    rfl
  | .number (.integer n), _, _, h => by
    rw [toDatum] at h
    cases h with
    | signed => rfl
    | unsigned hw => rw [toValue, numberOfUInt64_eq hw]
  | .number (.float x), _, _, h => by
    rw [toDatum] at h
    cases h
    rfl
  | .string s, _, _, h => by
    rw [toDatum] at h
    cases h with
    | string => rfl
    | owned => rfl
  | .sequence items, .sequence hitems, _, h => by
    rw [toDatum] at h
    cases h with
    | sequence h =>
      rw [toValue, toValues_eq_of_delivered items hitems h]
      rfl
  | .mapping entries, .mapping hnames hentries, _, h => by
    rw [toDatum] at h
    cases h with
    | mapping h =>
      have hnames : (Entries.names ([] ++ entries)).Nodup := hnames
      rw [toValue, toEntries_eq_of_delivered entries hentries hnames h]
      rfl

theorem toValues_eq_of_delivered :
    (items : List Value) → (∀ v ∈ items, v.Distinct) → {ds : List Datum} →
      DeliveredItems (toData items) ds → toValues ds = .ok items
  | [], _, _, h => by
    rw [toData] at h
    cases h
    rfl
  | v :: rest, hitems, _, h => by
    obtain ⟨hv, hrest⟩ := List.forall_mem_cons.1 hitems
    rw [toData] at h
    cases h with
    | cons hd hds =>
      rw [toValues, toValue_eq_of_delivered v hv hd, toValues_eq_of_delivered rest hrest hds]
      rfl

/-- The entries are put one by one at the end of those before, for all names differ. -/
theorem toEntries_eq_of_delivered :
    (entries : List (String × Value)) → (∀ e ∈ entries, e.2.Distinct) →
      {before : Entries Value} → (Entries.names (before ++ entries)).Nodup →
      {ds : List (Datum × Datum)} → DeliveredEntries (toNamedData entries) ds →
      toEntries before ds = .ok (before ++ entries)
  | [], _, before, _, _, h => by
    rw [toNamedData] at h
    cases h
    rw [toEntries, List.append_nil]
  | (name, v) :: rest, hentries, before, hnames, _, h => by
    obtain ⟨hv, hrest⟩ := List.forall_mem_cons.1 hentries
    rw [toNamedData] at h
    cases h with
    | @cons _ key _ _ _ _ hkey hd hds =>
      have hname : toKey key = .ok name := by
        cases hkey with
        | string => rfl
        | owned => rfl
      have hnew : before.lookup name = none := by
        refine lookup_eq_none_iff_names.2 fun hmem => ?_
        rw [Entries.names, List.map_append, List.nodup_append] at hnames
        exact hnames.2.2 name hmem name List.mem_cons_self rfl
      have happend : before ++ (name, v) :: rest = (before ++ [(name, v)]) ++ rest := by
        rw [List.append_assoc, List.singleton_append]
      rw [happend] at hnames ⊢
      rw [toEntries, hname, toValue_eq_of_delivered v hv hd]
      show toEntries (before.put name v) _ = _
      rw [Entries.put_of_lookup_eq_none hnew]
      exact toEntries_eq_of_delivered rest hrest hnames hds

end

/-- **Reading undoes writing.** For every document, with all names in a mapping distinct, whatever a
reader delivers for the datum that it is written out as is read as the same document: the same
words of integers and floats, and the same names in the same order. The datum itself is one that a
reader may deliver. -/
theorem toValue_delivered {v : Value} (hv : v.Distinct) :
    v.toDatum.Delivered v.toDatum ∧ ∀ d, v.toDatum.Delivered d → d.toValue = .ok v :=
  ⟨delivered_toDatum v, fun _ h => toValue_eq_of_delivered v hv h⟩

/-- An integer inside a mapping may come as an unsigned word, and a name as a text that is given
away; what is no number keeps its word. -/
theorem toValue_delivered_unsigned :
    let nan : Binary64 := .nan true
    let v := Value.mapping [("b", .ofInt64 1), ("a", .sequence [.ofFloat nan, .null])]
    let d := Datum.mapping
      [(.ownedString "b", .uint64 1), (.string "a", .sequence [.float64 nan, .unit])]
    v.Distinct ∧ v.toDatum.Delivered d ∧ d.toValue = .ok v := by
  intro nan v d
  have hitems : ∀ w ∈ [Value.ofFloat nan, .null], w.Distinct :=
    List.forall_mem_cons.2 ⟨.number _, List.forall_mem_singleton.2 .null⟩
  have hv : v.Distinct :=
    .mapping (by decide) <| List.forall_mem_cons.2
      ⟨.number _, List.forall_mem_singleton.2 (.sequence hitems)⟩
  have hd : v.toDatum.Delivered d :=
    .mapping <| .cons (.owned "b") (.unsigned (by decide)) <|
      .cons (.string "a") (.sequence (.cons (.float nan) (.cons .unit .nil))) .nil
  exact ⟨hv, hd, (toValue_delivered hv).2 d hd⟩

end Datum

end DocPath
