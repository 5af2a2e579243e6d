import DocPath.Proofs.Building
import DocPath.Proofs.Delivery

/-!
# DocPath.Proofs.Documents

Which data are documents, and which document each of them is. A datum has a document exactly if
every node of it that stands in the place of a document may stand there, and so may every key
(`Datum.Supported`); a single node without a place, at any depth, spoils the whole. Byte strings,
wrappers and wide integers are such nodes, and variants too, to which tags of a text lead
(`Datum.toValue_variant_refused`). `Datum.Becomes` says what the document is: nothing is lost of a
scalar, and an integer is a float only if it is beyond the signed words.
-/

namespace DocPath

namespace Datum

/-! ### Nodes -/

/-- Whether the datum may stand in the place of a document, whatever is inside it. -/
def mayBeValue : Datum → Bool
  | wrapped _ => false
  | int128 _ => false
  | uint128 _ => false
  | bytes _ => false
  | variant _ _ => false
  | _ => true

/-- The integer that a datum is, for integers of up to sixty-four bits. -/
def integer? : Datum → Option Int
  | int8 n => some n.toInt
  | int16 n => some n.toInt
  | int32 n => some n.toInt
  | int64 n => some n.toInt
  | uint8 n => some n.toNat
  | uint16 n => some n.toNat
  | uint32 n => some n.toNat
  | uint64 n => some n.toNat
  | _ => none

/-- Whether the datum may stand in the place of a key: the unit, truth values, numbers of up to
sixty-four bits, characters and texts. -/
def mayBeKey : Datum → Bool
  | unit => true
  | bool _ => true
  | float32 _ => true
  | float64 _ => true
  | char _ => true
  | string _ => true
  | ownedString _ => true
  | d => d.integer?.isSome

/-- What stands directly inside a datum in the place of documents: the content of an optional value,
the items of a sequence, the values of a mapping. -/
def children : Datum → List Datum
  | present content => [content]
  | sequence items => items
  | mapping entries => entries.map (·.2)
  | _ => []

/-- What stands directly inside a datum in the place of keys. -/
def keys : Datum → List Datum
  | mapping entries => entries.map (·.1)
  | _ => []

/-- The nodes of a datum in the place of documents, itself included. -/
inductive HasNode : Datum → Datum → Prop
  | self (d : Datum) : HasNode d d
  | inside {d child node : Datum} : child ∈ d.children → HasNode child node → HasNode d node

/-- Every node of the datum may stand where it stands, and so may its keys. -/
def Supported (d : Datum) : Prop :=
  ∀ node, d.HasNode node → node.mayBeValue = true ∧ ∀ key ∈ node.keys, key.mayBeKey = true

theorem supported_iff {d : Datum} : d.Supported ↔
    (d.mayBeValue = true ∧ ∀ key ∈ d.keys, key.mayBeKey = true) ∧
      ∀ child ∈ d.children, child.Supported := by
  constructor
  · exact fun h => ⟨h d (.self d), fun child hchild node hnode => h node (.inside hchild hnode)⟩
  · intro h node hnode
    cases hnode with
    | self => exact h.1
    | inside hchild hnode => exact h.2 _ hchild node hnode

theorem sizeOf_lt_of_mem_children {d child : Datum} (h : child ∈ d.children) :
    sizeOf child < sizeOf d := by
  cases d with
  | present content =>
    rw [List.mem_singleton.1 h, present.sizeOf_spec]
    omega
  | sequence items =>
    have hlt := List.sizeOf_lt_of_mem (show child ∈ items from h)
    rw [sequence.sizeOf_spec]
    omega
  | mapping entries =>
    obtain ⟨e, he, rfl⟩ := List.mem_map.1 h
    have hlt := List.sizeOf_lt_of_mem he
    have hpair : sizeOf e = 1 + sizeOf e.1 + sizeOf e.2 := rfl
    rw [mapping.sizeOf_spec]
    omega
  | _ => cases h

/-- Induction along the nodes of a datum. -/
@[elab_as_elim]
theorem node_induction {motive : Datum → Prop}
    (node : ∀ d, (∀ child ∈ d.children, motive child) → motive d) (d : Datum) : motive d :=
  node d fun child hchild =>
    have := sizeOf_lt_of_mem_children hchild
    node_induction node child
termination_by sizeOf d

/-! ### Reading lists of data -/

/-- Two relations that agree on the items of a list relate it to the same lists. -/
theorem forall₂_congr_of_mem {α β : Type} {R S : α → β → Prop} {xs : List α}
    (h : ∀ x ∈ xs, ∀ y, R x y ↔ S x y) {ys : List β} :
    List.Forall₂ R xs ys ↔ List.Forall₂ S xs ys := by
  rw [List.forall₂_iff_zip, List.forall₂_iff_zip]
  refine and_congr_right fun _ => forall_congr' fun x => forall_congr' fun y => ?_
  exact imp_congr_right fun hmem => h x (List.of_mem_zip hmem).1 y

theorem forall₂_and_iff {α β : Type} {R S : α → β → Prop} {xs : List α} {ys : List β} :
    List.Forall₂ (fun x y => R x y ∧ S x y) xs ys ↔
      List.Forall₂ R xs ys ∧ List.Forall₂ S xs ys := by
  refine ⟨fun h => ⟨h.imp fun _ _ => And.left, h.imp fun _ _ => And.right⟩, fun h => ?_⟩
  exact .mp (fun _ _ hR hS => ⟨hR, hS⟩) h.1 h.2

/-- The entry that a pair of data is. -/
def toEntry (e : Datum × Datum) : Except DatumError (String × Value) := do
  let name ← toKey e.1
  let value ← toValue e.2
  return (name, value)

theorem toEntry_eq_ok_iff {e : Datum × Datum} {p : String × Value} :
    toEntry e = .ok p ↔ toKey e.1 = .ok p.1 ∧ toValue e.2 = .ok p.2 := by
  rw [toEntry]
  cases toKey e.1 with
  | error => exact ⟨nofun, nofun⟩
  | ok name =>
    cases toValue e.2 with
    | error => exact ⟨nofun, nofun⟩
    | ok v =>
      show Except.ok (name, v) = Except.ok p ↔ _
      rw [Except.ok.injEq, Except.ok.injEq, Except.ok.injEq, Prod.ext_iff]

theorem exists_toEntry_iff {e : Datum × Datum} :
    (∃ p, toEntry e = .ok p) ↔ (∃ name, toKey e.1 = .ok name) ∧ ∃ v, toValue e.2 = .ok v := by
  simp only [toEntry_eq_ok_iff, Prod.exists, exists_and_left, exists_and_right]

theorem toValues_eq_mapM (items : List Datum) : toValues items = items.mapM toValue := by
  induction items with
  | nil => rfl
  | cons item rest ih => rw [toValues, List.mapM_cons, ih]

theorem toEntries_eq_mapM (before : Entries Value) (entries : List (Datum × Datum)) :
    toEntries before entries = (entries.mapM toEntry).map
      (·.foldl (fun entries (name, v) => entries.put name v) before) := by
  induction entries generalizing before with
  | nil => rfl
  | cons e rest ih =>
    obtain ⟨key, item⟩ := e
    rw [toEntries, List.mapM_cons, toEntry]
    cases toKey key with
    | error => rfl
    | ok name =>
      cases toValue item with
      | error => rfl
      | ok v =>
        show toEntries (before.put name v) rest = _
        rw [ih]
        cases rest.mapM toEntry <;> rfl

theorem toValue_sequence (items : List Datum) :
    toValue (.sequence items) = (items.mapM toValue).map .sequence := by
  rw [toValue, toValues_eq_mapM]

theorem toValue_mapping (entries : List (Datum × Datum)) : toValue (.mapping entries) =
    (entries.mapM toEntry).map fun pairs => .mapping (Entries.ofPairs pairs) := by
  rw [toValue, toEntries_eq_mapM]
  cases entries.mapM toEntry <;> rfl

/-! ### Which data have a document -/

theorem exists_toKey_iff {d : Datum} : (∃ name, d.toKey = .ok name) ↔ d.mayBeKey = true := by
  cases d <;> simp [toKey, mayBeKey, integer?]

/-- A datum has a document exactly if all of its nodes may stand where they stand. -/
theorem exists_toValue_iff (d : Datum) : (∃ v, d.toValue = .ok v) ↔ d.Supported := by
  induction d using node_induction with
  | node d ih =>
    rw [supported_iff]
    cases d with
    | present content =>
      have hcontent := ih content List.mem_cons_self
      simp only [toValue]
      simp [hcontent, mayBeValue, keys, children]
    | sequence items =>
      rw [toValue_sequence, exists_map_eq_ok_iff, exists_mapM_eq_ok_iff]
      simp only [mayBeValue, keys, List.not_mem_nil, false_implies, implies_true, true_and]
      exact forall₂_congr ih
    | mapping entries =>
      rw [toValue_mapping, exists_map_eq_ok_iff, exists_mapM_eq_ok_iff]
      simp only [mayBeValue, keys, children, List.forall_mem_map, true_and, ← forall_and]
      refine forall₂_congr fun e he => ?_
      rw [exists_toEntry_iff]
      exact and_congr exists_toKey_iff (ih e.2 (List.mem_map_of_mem he))
    | _ => simp [toValue, mayBeValue, keys, children]

/-! ### The document of a datum -/

/-- What a datum becomes as a document. -/
inductive Becomes : Datum → Value → Prop
  | unit : Becomes .unit .null
  | absent : Becomes .absent .null
  /-- An optional value is its content. -/
  | present {content : Datum} {v : Value} : Becomes content v → Becomes (.present content) v
  | bool (b : Bool) : Becomes (.bool b) (.bool b)
  /-- Integers that a signed word can hold, whatever their width. -/
  | integer {d : Datum} {w : Int64} : d.integer? = some w.toInt → Becomes d (.ofInt64 w)
  /-- Integers that no signed word can hold. -/
  | large {d : Datum} {n : Nat} : d.integer? = some (n : Int) → Int64.maxValue.toInt < n →
      Becomes d (.ofFloat (.ofNat n))
  | float32 (bits : UInt32) : Becomes (.float32 bits) (.ofFloat (.ofBinary32 bits))
  | float64 (x : Binary64) : Becomes (.float64 x) (.ofFloat x)
  | char (c : Char) : Becomes (.char c) (.string (.singleton c))
  | string (s : String) : Becomes (.string s) (.string s)
  | ownedString (s : String) : Becomes (.ownedString s) (.string s)
  | sequence {items : List Datum} {values : List Value} : List.Forall₂ Becomes items values →
      Becomes (.sequence items) (.sequence values)
  /-- Each entry is put in turn under the text of its key. -/
  | mapping {entries : List (Datum × Datum)} {pairs : List (String × Value)} :
      List.Forall₂ (fun e p => toKey e.1 = .ok p.1) entries pairs →
      List.Forall₂ Becomes (entries.map (·.2)) (pairs.map (·.2)) →
      Becomes (.mapping entries) (.mapping (Entries.ofPairs pairs))

/-! ### Integers -/

theorem numberOfUInt64_of_lt {n : UInt64} (h : Int64.maxValue.toInt < n.toNat) :
    numberOfUInt64 n = .float (.ofNat n.toNat) := by
  rw [Int64.toInt_maxValue] at h
  rw [numberOfUInt64, if_neg]
  simp only [UInt64.size]
  omega

/-- Narrow integers are read as wide ones, signed or unsigned as they are. -/
theorem widened_of_integer? {d : Datum} {n : Int} (h : d.integer? = some n) :
    (∃ w : Int64, w.toInt = n ∧ d.toValue = .ok (.ofInt64 w)) ∨
      ∃ u : UInt64, (u.toNat : Int) = n ∧ d.toValue = .ok (.number (numberOfUInt64 u)) := by
  cases d with
  | int8 n => exact .inl ⟨n.toInt64, (n.toInt_toInt64).trans (Option.some.inj h), rfl⟩
  | int16 n => exact .inl ⟨n.toInt64, (n.toInt_toInt64).trans (Option.some.inj h), rfl⟩
  | int32 n => exact .inl ⟨n.toInt64, (n.toInt_toInt64).trans (Option.some.inj h), rfl⟩
  | int64 n => exact .inl ⟨n, Option.some.inj h, rfl⟩
  | uint8 n => exact .inr ⟨n.toUInt64, Option.some.inj h, rfl⟩
  | uint16 n => exact .inr ⟨n.toUInt64, Option.some.inj h, rfl⟩
  | uint32 n => exact .inr ⟨n.toUInt64, Option.some.inj h, rfl⟩
  | uint64 n => exact .inr ⟨n, Option.some.inj h, rfl⟩
  | _ => cases h

theorem toValue_of_integer? {d : Datum} {w : Int64} (h : d.integer? = some w.toInt) :
    d.toValue = .ok (.ofInt64 w) := by
  obtain ⟨w', hw, hvalue⟩ | ⟨u, hu, hvalue⟩ := widened_of_integer? h
  · obtain rfl := Int64.toInt_inj.1 hw
    exact hvalue
  · rw [hvalue, numberOfUInt64_eq hu.symm]
    rfl

theorem toValue_of_large {d : Datum} {n : Nat} (h : d.integer? = some (n : Int))
    (hn : Int64.maxValue.toInt < n) : d.toValue = .ok (.ofFloat (.ofNat n)) := by
  obtain ⟨w, hw, -⟩ | ⟨u, hu, hvalue⟩ := widened_of_integer? h
  · have hle := w.toInt_lt
    rw [Int64.toInt_maxValue] at hn
    omega
  · obtain rfl := Int.ofNat.inj hu
    rw [hvalue, numberOfUInt64_of_lt hn]
    rfl

/-- An integer becomes what it is read as. -/
theorem becomes_of_integer? {d : Datum} {n : Int} (h : d.integer? = some n) :
    ∃ v, d.toValue = .ok v ∧ d.Becomes v := by
  obtain ⟨w, rfl, hvalue⟩ | ⟨u, rfl, -⟩ := widened_of_integer? h
  · exact ⟨_, hvalue, .integer h⟩
  · rcases Int.lt_or_le Int64.maxValue.toInt u.toNat with hlarge | hle
    · exact ⟨_, toValue_of_large h hlarge, .large h hlarge⟩
    · rw [Int64.toInt_maxValue] at hle
      have hword : (Int64.ofNat u.toNat).toInt = u.toNat := Int64.toInt_ofNat_of_lt (by omega)
      rw [← hword] at h
      exact ⟨_, toValue_of_integer? h, .integer h⟩

/-! ### Reading is becoming -/

/-- Integers are read as what they become, and as nothing else. -/
theorem toValue_integer_eq_ok_iff {d : Datum} {n : Int} (h : d.integer? = some n) {v : Value} :
    d.toValue = .ok v ↔ d.Becomes v := by
  constructor
  · intro hv
    obtain ⟨v', hv', hbecomes⟩ := becomes_of_integer? h
    obtain rfl := Except.ok.inj (hv.symm.trans hv')
    exact hbecomes
  · intro hv
    cases hv with
    | integer hn => exact toValue_of_integer? hn
    | large hn hlarge => exact toValue_of_large hn hlarge
    | _ => cases h

theorem becomes_present_iff {content : Datum} {v : Value} :
    (Datum.present content).Becomes v ↔ content.Becomes v := by
  refine ⟨fun h => ?_, .present⟩
  cases h with
  | present h => exact h
  | integer h => cases h
  | large h => cases h

theorem becomes_sequence_iff {items : List Datum} {v : Value} : (Datum.sequence items).Becomes v ↔
    ∃ values, List.Forall₂ Becomes items values ∧ .sequence values = v := by
  constructor
  · intro h
    cases h with
    | sequence h => exact ⟨_, h, rfl⟩
    | integer h => cases h
    | large h => cases h
  · intro h
    obtain ⟨values, h, rfl⟩ := h
    exact .sequence h

theorem becomes_mapping_iff {entries : List (Datum × Datum)} {v : Value} :
    (Datum.mapping entries).Becomes v ↔ ∃ pairs : List (String × Value),
      (List.Forall₂ (fun e p => toKey e.1 = .ok p.1) entries pairs ∧
        List.Forall₂ Becomes (entries.map (·.2)) (pairs.map (·.2))) ∧
      .mapping (Entries.ofPairs pairs) = v := by
  constructor
  · intro h
    cases h with
    | mapping hkeys hvalues => exact ⟨_, ⟨hkeys, hvalues⟩, rfl⟩
    | integer h => cases h
    | large h => cases h
  · intro h
    obtain ⟨pairs, ⟨hkeys, hvalues⟩, rfl⟩ := h
    exact .mapping hkeys hvalues

/-- A datum is read as a document exactly if it becomes this one. -/
theorem toValue_eq_ok_iff (d : Datum) (v : Value) : d.toValue = .ok v ↔ d.Becomes v := by
  induction d using node_induction generalizing v with
  | node d ih =>
    cases d with
    | int8 | int16 | int32 | int64 | uint8 | uint16 | uint32 | uint64 =>
      exact toValue_integer_eq_ok_iff rfl
    | present content =>
      rw [becomes_present_iff]
      simp only [toValue]
      exact ih content List.mem_cons_self v
    | sequence items =>
      rw [toValue_sequence, map_eq_ok_iff, becomes_sequence_iff]
      have hitems : ∀ values, List.Forall₂ (fun d v => toValue d = .ok v) items values ↔
          List.Forall₂ Becomes items values := fun _ => forall₂_congr_of_mem ih
      simp only [mapM_eq_ok_iff, hitems]
    | mapping entries =>
      rw [toValue_mapping, map_eq_ok_iff, becomes_mapping_iff]
      have hvalues : ∀ pairs : List (String × Value),
          List.Forall₂ (fun e p => toValue e.2 = .ok p.2) entries pairs ↔
            List.Forall₂ Becomes (entries.map (·.2)) (pairs.map (·.2)) := by
        intro pairs
        rw [List.forall₂_map_left_iff, List.forall₂_map_right_iff]
        exact forall₂_congr_of_mem fun e he p => ih e.2 (List.mem_map_of_mem he) p.2
      simp only [mapM_eq_ok_iff, toEntry_eq_ok_iff, forall₂_and_iff, hvalues]
    | _ =>
      constructor
      · intro h
        cases h <;> constructor
      · intro h
        -- The rules for integers are about any datum that is one, so they have to be ruled out.
        cases h with
        | integer h => cases h
        | large h => cases h
        | _ => rfl

/-- **Which data are documents.** A datum is read as a document if and only if no node in the place
of a document is a byte string, a wrapper, a variant or an integer of 128 bits, and every key is a
truth value, a number of up to sixty-four bits, a text, a character or the unit. It is then the one
document that it becomes: an integer is the same integer if a signed word can hold it, or else the
float that its number is rounded to; all other scalars are kept as they are; sequences have the
documents of their items in order. -/
theorem toValue_exact (d : Datum) :
    ((∃ v, d.toValue = .ok v) ↔ ∀ node, d.HasNode node →
      node.mayBeValue = true ∧ ∀ key ∈ node.keys, key.mayBeKey = true) ∧
    ∀ v, d.toValue = .ok v ↔ d.Becomes v :=
  ⟨exists_toValue_iff d, toValue_eq_ok_iff d⟩

/-- Without the variants the rule is wrong. The text `!foo 1` is read as one, of an integer; it is
no byte string, wrapper or integer of 128 bits, nor has it a key, and still it has no document. -/
theorem toValue_variant_refused :
    let d := variant "foo" (.uint64 1)
    Yaml.read? "!foo 1".toList = some d ∧
      ¬ ((∃ v, d.toValue = .ok v) ↔ ∀ node, d.HasNode node →
        ((∀ content, node ≠ .bytes content) ∧ (∀ content, node ≠ .wrapped content) ∧
          (∀ n, node ≠ .int128 n) ∧ ∀ n, node ≠ .uint128 n) ∧
        ∀ key ∈ node.keys, key.mayBeKey = true) := by
  intro d
  -- Data are not compared by computation, but what is read can be tested for its form.
  have hread : ∃ d', Yaml.read? "!foo 1".toList = some d' ∧
      (match d' with
        | .variant name (.uint64 n) => name == "foo" && n == 1
        | _ => false) = true :=
    (Option.any_eq_true _ _).1 (by decide +kernel)
  have hrefused : ¬ ∃ v, d.toValue = .ok v := by
    rintro ⟨v, hv⟩
    cases hv
  refine ⟨?_, fun hrule => hrefused (hrule.2 fun node hnode => ?_)⟩
  · obtain ⟨d', hd', hmatch⟩ := hread
    split at hmatch
    next name n =>
      simp only [Bool.and_eq_true, beq_iff_eq] at hmatch
      rw [hd', hmatch.1, hmatch.2]
    next => cases hmatch
  -- The variant is its only node in the place of a document: what it holds is not looked at.
  cases hnode with
  | self => exact ⟨⟨nofun, nofun, nofun, nofun⟩, nofun⟩
  | inside hchild => cases hchild

end Datum

end DocPath
