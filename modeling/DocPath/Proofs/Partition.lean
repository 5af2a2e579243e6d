import DocPath.Proofs.Composition

/-!
# DocPath.Proofs.Partition

The slice up to a bound and the slice from it on make up the whole sequence. A bound resolves to the
same place whether it begins a slice or ends it, and to a place inside, so the two slices open all
elements between them, each of them once (`Index.opened_append_opened`). What a walk gives is then
cut in two as well, at the first failure at the latest (`results_partition`).
-/

namespace DocPath

/-! ### Results before and after a failure -/

section

variable {α ε : Type} {xs : List (Except ε α)}

/-- A failure among results hides all that comes after them. -/
theorem upToError_append_of_error {e : ε} (h : .error e ∈ xs) (ys : List (Except ε α)) :
    upToError (xs ++ ys) = upToError xs := by
  induction xs with
  | nil => cases h
  | cons x xs ih =>
    cases x with
    | error e => rfl
    | ok a => exact congrArg (.ok a :: ·) (ih ((List.mem_cons.1 h).resolve_left nofun))

/-- Results without a failure hide nothing. -/
theorem upToError_append_of_ok (h : ∀ e, .error e ∉ upToError xs) (ys : List (Except ε α)) :
    upToError (xs ++ ys) = upToError xs ++ upToError ys := by
  induction xs with
  | nil => rfl
  | cons x xs ih =>
    cases x with
    | error e => exact absurd List.mem_cons_self (h e)
    | ok a => exact congrArg (.ok a :: ·) (ih fun e he => h e (List.mem_cons_of_mem _ he))

end

/-! ### The two slices -/

/-- A bound cuts a sequence in two: one slice ends where the other begins. -/
theorem Index.opened_append_opened (k : Int64) (items : List Value) :
    (slice .wildcard (.at k)).opened items ++ (slice (.at k) .wildcard).opened items = items := by
  let place := (Bound.at k).resolve items.length items.length
  have hplace : place ≤ items.length := Bound.resolve_le (Nat.le_refl _)
  have hhead : (slice .wildcard (.at k)).opened items = items.take place := by
    show (items.take (max place 0)).drop 0 = _
    rw [Nat.max_zero, List.drop_zero]
  have htail : (slice (.at k) .wildcard).opened items = items.drop place := by
    show (items.take (max items.length place)).drop place = _
    rw [Nat.max_eq_left hplace, List.take_length]
  rw [hhead, htail, List.take_append_drop]

theorem Index.opened_one_wildcard (items : List Value) : (one .wildcard).opened items = items := rfl

/-- A walk of a sequence gives what the operations behind an index give at what it opens. -/
theorem results_index (i : Index) (items : List Value) (q : List Op) :
    (Walk.start ⟨.index i :: q⟩ (.sequence items)).results =
      upToError ((i.opened items).flatMap fun item => meaning item [] q) :=
  (Walk.results_start ..).trans (congrArg upToError (meaning_of_sequence i items q))

/-- **Complementary slices partition a walk.** Let a sequence be walked along the slice up to a
position, along the slice from that position on, and along all its elements, each time with the same
operations behind. If the first walk has no failure, its results and those of the second one are, in
order, the results of the third. If it has one, its results are those of the third. -/
theorem results_partition (items : List Value) (k : Int64) (q : List Op) :
    let results (i : Index) := (Walk.start ⟨.index i :: q⟩ (.sequence items)).results
    let head := results (.slice .wildcard (.at k))
    let tail := results (.slice (.at k) .wildcard)
    let all := results (.one .wildcard)
    ((∀ e, .error e ∉ head) → all = head ++ tail) ∧ ((∃ e, .error e ∈ head) → all = head) := by
  intro results head tail all
  have hhead : head = _ := results_index (.slice .wildcard (.at k)) items q
  have htail : tail = _ := results_index (.slice (.at k) .wildcard) items q
  have hall : all = _ := results_index (.one .wildcard) items q
  -- What all elements give is what those of the two slices give, one after the other.
  rw [Index.opened_one_wildcard, ← Index.opened_append_opened k items, List.flatMap_append] at hall
  rw [hhead, htail, hall]
  constructor
  · exact fun hok => upToError_append_of_ok hok _
  · rintro ⟨e, he⟩
    exact upToError_append_of_error (mem_of_mem_upToError he) _

/-- The walk along `[*:-1][*]` and then `[-1:*][*]`, which fails, is the walk along `[*][*]`. So is
the walk along `[*:-1][*]` alone if it is there that it fails. -/
theorem results_partition_failure :
    let results (i : Index) (items : List Value) :=
      (Walk.start ⟨[.index i, .index (.one .wildcard)]⟩ (.sequence items)).results
    let head := Index.slice .wildcard (.at (-1))
    let tail := Index.slice (.at (-1)) .wildcard
    let inner := Value.sequence [.bool true]
    let failure := Except.error (WalkError.notASequence "[*]" "str")
    (results head [inner, .string "x"] = [.ok (.bool true)] ∧
      results (.one .wildcard) [inner, .string "x"] =
        [.ok (.bool true)] ++ results tail [inner, .string "x"]) ∧
    (results head [.string "x", inner] = [failure] ∧
      results (.one .wildcard) [.string "x", inner] = [failure]) := by
  intro results head tail inner failure
  have hcut (v w : Value) : head.opened [v, w] = [v] := by
    have hselect : head.select 2 = .slice 0 1 := by decide
    rw [Index.opened, show head.select [v, w].length = _ from hselect]
    rfl
  have hok : results head [inner, .string "x"] = [.ok (.bool true)] := by
    rw [show results head _ = _ from results_index .., hcut]
    rfl
  have hfail : results head [.string "x", inner] = [failure] := by
    rw [show results head _ = _ from results_index .., hcut]
    rfl
  have hclean : ∀ e, .error e ∉ results head [inner, .string "x"] := by
    rw [hok]
    simp
  have hbroken : ∃ e, .error e ∈ results head [.string "x", inner] := by
    rw [hfail]
    exact ⟨_, List.mem_singleton_self _⟩
  have hparts := (results_partition [inner, .string "x"] (-1) [.index (.one .wildcard)]).1 hclean
  have hwhole := (results_partition [.string "x", inner] (-1) [.index (.one .wildcard)]).2 hbroken
  exact ⟨⟨hok, hparts.trans (congrArg (· ++ _) hok)⟩, hfail, hwhole.trans hfail⟩

end DocPath
