import DocPath.Proofs.Equality

/-!
# DocPath.Proofs.Equivalence

Equality of values is a partial equivalence, as long as the names in every mapping are distinct: it
is symmetric (`Value.equal_symm`) and transitive (`Value.equal_trans`), and a value equals itself
exactly if no float in it is something else than a number (`Value.equal_self_iff`). The order of
entries does not show, at any depth (`Value.Reordered`).

That a mapping is found in another one looks only one way. That the second is then found in the
first is where distinct names come in: the two have the same ones (`Value.perm_names`).
-/

namespace DocPath

/-! ### Numbers -/

theorem Binary64.equal_trans {x y z : Binary64} (hxy : x.equal y = true) (hyz : y.equal z = true) :
    x.equal z = true := by
  simp only [equal, Bool.and_eq_true, Bool.or_eq_true, beq_iff_eq] at hxy hyz ⊢
  obtain ⟨⟨hx, -⟩, hxy⟩ := hxy
  obtain ⟨⟨-, hz⟩, hyz⟩ := hyz
  refine ⟨⟨hx, hz⟩, ?_⟩
  rcases hxy with rfl | ⟨hx0, hy0⟩
  · exact hyz
  · rcases hyz with rfl | ⟨-, hz0⟩
    · exact Or.inr ⟨hx0, hy0⟩
    · exact Or.inr ⟨hx0, hz0⟩

theorem Number.equal_comm (m n : Number) : m.equal n = n.equal m := by
  cases m with
  | integer m =>
    cases n with
    | integer n => rw [equal, equal, Bool.beq_comm]
    | float y => rfl
  | float x =>
    cases n with
    | integer n => rfl
    | float y => exact Binary64.equal_comm x y

theorem Number.equal_trans {l m n : Number} (hlm : l.equal m = true) (hmn : m.equal n = true) :
    l.equal n = true := by
  cases l <;> cases m <;> cases n <;> simp only [equal, Bool.false_eq_true] at hlm hmn ⊢
  · exact beq_iff_eq.2 ((beq_iff_eq.1 hlm).trans (beq_iff_eq.1 hmn))
  · exact Binary64.equal_trans hlm hmn

namespace Value

variable {a b c : Value}

/-! ### Symmetry and transitivity -/

theorem equal_symm (ha : a.Distinct) (hb : b.Distinct) (h : a.equal b = true) :
    b.equal a = true := by
  induction ha generalizing b with
  | null =>
    cases Alike.sameForm ⟨.null, h⟩
    exact h
  | bool x =>
    cases Alike.sameForm ⟨.bool x, h⟩
    exact h
  | number m =>
    cases b with
    | number n => rwa [equal, Number.equal_comm]
    | _ => simp [equal] at h
  | string s =>
    cases Alike.sameForm ⟨.string s, h⟩
    exact h
  | sequence _ ih =>
    cases hb with
    | sequence hbs =>
      rw [equal, equalItems_iff] at h ⊢
      have hitems := (List.forall₂_and_left _ _).2 ⟨ih, h⟩
      have hboth := (List.forall₂_and_left _ _).2 ⟨hbs, hitems.flip⟩
      exact hboth.imp fun w v hvw => hvw.2.1 hvw.1 hvw.2.2
    | _ => simp [equal] at h
  | mapping has _ ih =>
    cases hb with
    | mapping hbs hentries =>
      obtain ⟨hlength, hfound⟩ := equal_mapping_iff.1 h
      refine equal_mapping_iff.2 ⟨hlength.symm, fun f hf => ?_⟩
      -- The name of the entry is also one of the first mapping, and there it has the entry by which
      -- the first is found in the second.
      have hname := (perm_names has h).mem_iff.2 (List.mem_map_of_mem hf)
      obtain ⟨e, he, hsame⟩ := List.mem_map.1 hname
      obtain ⟨w, hw, heq⟩ := hfound e he
      have hvalue : w = f.2 := by
        rw [hsame, (lookup_eq_some_iff_mem hbs).2 hf] at hw
        exact (Option.some.inj hw).symm
      rw [hvalue] at heq
      rw [← hsame]
      exact ⟨e.2, (lookup_eq_some_iff_mem has).2 he, ih e he (hentries f hf) heq⟩
    | _ => simp [equal] at h

theorem equal_comm (ha : a.Distinct) (hb : b.Distinct) : a.equal b = b.equal a := by
  rw [Bool.eq_iff_iff]
  exact ⟨equal_symm ha hb, equal_symm hb ha⟩

theorem forall₂_trans {R : Value → Value → Prop} {as bs cs : List Value}
    (htrans : ∀ a ∈ as, ∀ b ∈ bs, ∀ c, R a b → R b c → R a c) (hab : List.Forall₂ R as bs)
    (hbc : List.Forall₂ R bs cs) : List.Forall₂ R as cs := by
  induction hab generalizing cs with
  | nil => exact hbc
  | @cons a b as bs hfirst _ ih =>
    cases hbc with
    | cons hfirst' hrest =>
      refine .cons (htrans a List.mem_cons_self b List.mem_cons_self _ hfirst hfirst') (ih ?_ hrest)
      exact fun a ha b hb => htrans a (List.mem_cons_of_mem _ ha) b (List.mem_cons_of_mem _ hb)

theorem equal_trans (ha : a.Distinct) (hb : b.Distinct) (hab : a.equal b = true)
    (hbc : b.equal c = true) : a.equal c = true := by
  induction ha generalizing b c with
  | null =>
    cases Alike.sameForm ⟨.null, hab⟩
    exact hbc
  | bool x =>
    cases Alike.sameForm ⟨.bool x, hab⟩
    exact hbc
  | number l =>
    cases hb with
    | number m =>
      cases c with
      | number n => exact Number.equal_trans hab hbc
      | _ => simp [equal] at hbc
    | _ => simp [equal] at hab
  | string s =>
    cases Alike.sameForm ⟨.string s, hab⟩
    exact hbc
  | sequence _ ih =>
    cases hb with
    | sequence hbs =>
      cases c with
      | sequence cs =>
        rw [equal, equalItems_iff] at hab hbc ⊢
        exact forall₂_trans (fun a ha b hb _ => ih a ha (hbs b hb)) hab hbc
      | _ => simp [equal] at hbc
    | _ => simp [equal] at hab
  | mapping has _ ih =>
    cases hb with
    | mapping hbs hentries =>
      cases c with
      | mapping cs =>
        obtain ⟨habLength, habFound⟩ := equal_mapping_iff.1 hab
        obtain ⟨hbcLength, hbcFound⟩ := equal_mapping_iff.1 hbc
        refine equal_mapping_iff.2 ⟨habLength.trans hbcLength, fun e he => ?_⟩
        obtain ⟨v, hv, hev⟩ := habFound e he
        have hmem := mem_of_lookup hv
        obtain ⟨w, hw, hvw⟩ := hbcFound (e.1, v) hmem
        exact ⟨w, hw, ih e he (hentries (e.1, v) hmem) hev hvw⟩
      | _ => simp [equal] at hbc
    | _ => simp [equal] at hab

/-! ### Values that equal themselves -/

theorem partOf_sequence_iff {items : List Value} :
    a.PartOf (.sequence items) ↔ a = .sequence items ∨ ∃ item ∈ items, a.PartOf item := by
  constructor
  · intro h
    cases h with
    | self => exact Or.inl rfl
    | item hitem h => exact Or.inr ⟨_, hitem, h⟩
  · rintro (rfl | ⟨item, hitem, h⟩)
    · exact .self
    · exact .item hitem h

theorem partOf_mapping_iff {entries : List (String × Value)} :
    a.PartOf (.mapping entries) ↔ a = .mapping entries ∨ ∃ e ∈ entries, a.PartOf e.2 := by
  constructor
  · intro h
    cases h with
    | self => exact Or.inl rfl
    | entry hentry h => exact Or.inr ⟨_, hentry, h⟩
  · rintro (rfl | ⟨e, he, h⟩)
    · exact .self
    · exact .entry he h

/-- A value equals itself exactly if every float in it is a number. -/
theorem equal_self_iff (ha : a.Distinct) :
    a.equal a = true ↔ ∀ x : Binary64, (ofFloat x).PartOf a → x.isNaN = false := by
  induction ha with
  | null => exact iff_of_true rfl fun _ h => by cases h
  | bool x => exact iff_of_true (by simp [equal]) fun _ h => by cases h
  | string s => exact iff_of_true (by simp [equal]) fun _ h => by cases h
  | number n =>
    cases n with
    | integer n => exact iff_of_true (by simp [equal, Number.equal]) fun _ h => by cases h
    | float x =>
      have hself : (number (.float x)).equal (number (.float x)) = !x.isNaN := by
        rw [equal, Number.equal, Binary64.equal_self]
      rw [hself, Bool.not_eq_true']
      constructor
      · intro hx y hy
        cases hy
        exact hx
      · exact fun h => h x .self
  | @sequence items _ ih =>
    rw [equal, equalItems_iff, List.forall₂_same]
    simp only [partOf_sequence_iff, ofFloat, reduceCtorEq, false_or]
    constructor
    · rintro h x ⟨v, hv, hx⟩
      exact (ih v hv).1 (h v hv) x hx
    · exact fun h v hv => (ih v hv).2 fun x hx => h x ⟨v, hv, hx⟩
  | @mapping entries hnames _ ih =>
    have hself : ∀ e ∈ entries, entries.lookup e.1 = some e.2 := fun e he =>
      (lookup_eq_some_iff_mem hnames).2 he
    rw [equal_mapping_iff]
    simp only [partOf_mapping_iff, ofFloat, reduceCtorEq, false_or]
    constructor
    · rintro ⟨-, h⟩ x ⟨e, he, hx⟩
      obtain ⟨v, hv, heq⟩ := h e he
      obtain rfl := Option.some.inj ((hself e he).symm.trans hv)
      exact (ih e he).1 heq x hx
    · intro h
      exact ⟨trivial, fun e he => ⟨e.2, hself e he, (ih e he).2 fun x hx => h x ⟨e, he, hx⟩⟩⟩

/-! ### The order of entries -/

/-- The values differ only in the order of entries, in mappings at any depth. -/
inductive Reordered : Value → Value → Prop
  | refl (v : Value) : Reordered v v
  | trans {u v w : Value} : Reordered u v → Reordered v w → Reordered u w
  | mapping {as bs : List (String × Value)} : as.Perm bs → Reordered (.mapping as) (.mapping bs)
  | item {before after : List Value} {v w : Value} : Reordered v w →
      Reordered (.sequence (before ++ v :: after)) (.sequence (before ++ w :: after))
  | entry {before after : List (String × Value)} {name : String} {v w : Value} : Reordered v w →
      Reordered (.mapping (before ++ (name, v) :: after)) (.mapping (before ++ (name, w) :: after))

theorem Reordered.distinct {v w : Value} (h : v.Reordered w) (hv : v.Distinct) : w.Distinct := by
  induction h with
  | refl => exact hv
  | trans _ _ ih₁ ih₂ => exact ih₂ (ih₁ hv)
  | mapping hperm =>
    cases hv with
    | mapping hnames hentries =>
      exact .mapping ((hperm.map _).nodup_iff.1 hnames) fun e he => hentries e (hperm.mem_iff.2 he)
  | item _ ih =>
    cases hv with
    | sequence hitems =>
      simp only [List.forall_mem_append, List.forall_mem_cons] at hitems
      refine .sequence ?_
      simp only [List.forall_mem_append, List.forall_mem_cons]
      exact ⟨hitems.1, ih hitems.2.1, hitems.2.2⟩
  | entry _ ih =>
    cases hv with
    | mapping hnames hentries =>
      simp only [List.forall_mem_append, List.forall_mem_cons] at hentries
      refine .mapping (by simpa [Entries.names] using hnames) ?_
      simp only [List.forall_mem_append, List.forall_mem_cons]
      exact ⟨hentries.1, ih hentries.2.1, hentries.2.2⟩

theorem Reordered.equal_left {v w : Value} (h : v.Reordered w) (b : Value) :
    w.equal b = v.equal b := by
  induction h generalizing b with
  | refl => rfl
  | trans _ _ ih₁ ih₂ => rw [ih₂, ih₁]
  | mapping hperm =>
    cases b with
    | mapping bs =>
      rw [Bool.eq_iff_iff, equal_mapping_iff, equal_mapping_iff, hperm.length_eq]
      simp only [hperm.mem_iff]
    | _ => rfl
  | @item before after v w _ ih =>
    cases b with
    | sequence bs =>
      rw [equal, equal]
      induction before generalizing bs with
      | nil => cases bs <;> simp [equalItems, ih]
      | cons a before ihBefore => cases bs <;> simp [equalItems, ihBefore]
    | _ => rfl
  | @entry before after name v w _ ih =>
    cases b with
    | mapping bs =>
      rw [Bool.eq_iff_iff, equal_mapping_iff, equal_mapping_iff]
      simp only [List.length_append, List.length_cons, List.forall_mem_append, List.forall_mem_cons,
        ih]
    | _ => rfl

theorem Reordered.equal_right {v w : Value} (h : v.Reordered w) (hv : v.Distinct) {b : Value}
    (hb : b.Distinct) : b.equal w = b.equal v := by
  rw [equal_comm hb (h.distinct hv), h.equal_left, equal_comm hv hb]

/-- **Equality is a partial equivalence.** It is symmetric and transitive, and a value equals itself
exactly if no float in it, at any depth, is something else than a number. The order of entries in
mappings, at any depth, never changes a comparison, on either side; and values of different kinds
are never equal. The names in every mapping have to be distinct. -/
theorem equal_partialEquivalence (ha : a.Distinct) (hb : b.Distinct) :
    (a.equal b = true → b.equal a = true) ∧
    (∀ c, a.equal b = true → b.equal c = true → a.equal c = true) ∧
    (a.equal a = true ↔ ∀ x : Binary64, (ofFloat x).PartOf a → x.isNaN = false) ∧
    (∀ a', a.Reordered a' → a'.equal b = a.equal b ∧ b.equal a' = b.equal a) ∧
    (a.kindName ≠ b.kindName → a.equal b = false) := by
  refine ⟨equal_symm ha hb, fun c => equal_trans ha hb, equal_self_iff ha, fun a' h => ?_,
    fun hkind => ?_⟩
  · exact ⟨h.equal_left b, h.equal_right ha hb⟩
  · by_contra hne
    exact hkind (Alike.kindName_eq ⟨ha, Bool.not_eq_false _ ▸ hne⟩)

/-- Entries in another order, and zeros of either sign. -/
theorem equal_partialEquivalence_zeros :
    let a := Value.mapping [("x", ofFloat (.zero false)), ("y", .sequence [ofInt64 1])]
    let b := Value.mapping [("y", .sequence [ofInt64 1]), ("x", ofFloat (.zero true))]
    a.Distinct ∧ b.Distinct ∧ a.equal b = true ∧ b.equal a = true ∧ a.equal a = true := by
  intro a b
  have hitems : (Value.sequence [ofInt64 1]).Distinct :=
    .sequence (List.forall_mem_singleton.2 (.number _))
  have ha : a.Distinct := .mapping (by decide) <| List.forall_mem_cons.2
    ⟨.number _, List.forall_mem_singleton.2 hitems⟩
  have hb : b.Distinct := .mapping (by decide) <| List.forall_mem_cons.2
    ⟨hitems, List.forall_mem_singleton.2 (.number _)⟩
  obtain ⟨hsymm, htrans, -⟩ := equal_partialEquivalence ha hb
  have hab : a.equal b = true := by decide
  exact ⟨ha, hb, hab, hsymm hab, htrans a hab (hsymm hab)⟩

end Value

end DocPath
