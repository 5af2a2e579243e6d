/-!
# DocPath.Entries

Entries with distinct names, in the order in which the names first came. Putting a name that is
already there replaces its entry in place; a new name goes to the end. Looking a name up is
`List.lookup`.
-/

namespace DocPath

/-- Named entries, in order. -/
abbrev Entries (α : Type u) := List (String × α)

namespace Entries

variable {α : Type u}

/-- Gives a name an entry: in place of the one it has, or else at the end. -/
def put (key : String) (value : α) : Entries α → Entries α
  | [] => [(key, value)]
  | (k, v) :: rest => if k = key then (k, value) :: rest else (k, v) :: put key value rest

/-- Takes the entry of a name out: its value, and the other entries. -/
def take? (key : String) : Entries α → Option (α × Entries α)
  | [] => none
  | (k, v) :: rest =>
    if key == k then some (v, rest)
    else (take? key rest).map fun (value, others) => (value, (k, v) :: others)

/-- The entries that a list of pairs leaves when each pair is put in turn. -/
def ofPairs (pairs : List (String × α)) : Entries α :=
  pairs.foldl (fun entries (key, value) => put key value entries) []

/-- After a put, the name has the new entry. -/
theorem lookup_put_self (key : String) (value : α) (entries : Entries α) :
    (put key value entries).lookup key = some value := by
  induction entries with
  | nil => simp [put]
  | cons e rest ih =>
    obtain ⟨k, v⟩ := e
    by_cases h : k = key
    · subst h; simp [put]
    · have hne : (key == k) = false := beq_eq_false_iff_ne.2 (Ne.symm h)
      simp [put, h, List.lookup_cons, hne, ih]

/-- A put leaves the entries of all other names as they were. -/
theorem lookup_put_of_ne {key other : String} (h : other ≠ key) (value : α)
    (entries : Entries α) : (put key value entries).lookup other = entries.lookup other := by
  induction entries with
  | nil => simp [put, List.lookup_cons, beq_eq_false_iff_ne.2 h]
  | cons e rest ih =>
    obtain ⟨k, v⟩ := e
    by_cases hk : k = key
    · subst hk; simp [put, List.lookup_cons, beq_eq_false_iff_ne.2 h]
    · simp only [put, if_neg hk, List.lookup_cons, ih]

/-- A name without an entry gets one at the end. -/
theorem put_of_lookup_eq_none {key : String} {entries : Entries α}
    (h : entries.lookup key = none) (value : α) :
    put key value entries = entries ++ [(key, value)] := by
  induction entries with
  | nil => rfl
  | cons e rest ih =>
    obtain ⟨k, v⟩ := e
    cases hk : key == k with
    | true => simp [List.lookup_cons, hk] at h
    | false =>
      have hne : k ≠ key := Ne.symm (beq_eq_false_iff_ne.1 hk)
      rw [List.lookup_cons, hk] at h
      rw [put, if_neg hne, ih h, List.cons_append]

/-- What is taken out is what a lookup finds. -/
theorem take?_fst (key : String) (entries : Entries α) :
    (take? key entries).map (·.1) = entries.lookup key := by
  induction entries with
  | nil => rfl
  | cons e rest ih =>
    obtain ⟨k, v⟩ := e
    cases h : key == k with
    | true => simp [take?, List.lookup_cons, h]
    | false => simp [take?, List.lookup_cons, h, ← ih, Function.comp_def]

end Entries

end DocPath
