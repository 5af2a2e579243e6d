import DocPath.Path.Walk
import Mathlib.Logic.Function.Iterate
import Mathlib.Logic.Relation

/-!
# DocPath.Proofs.Visits

The loop of a walk, visit by visit. `Walk.visitTop` is what one turn of the loop does to the stack.
Every stack that a walk ever has, after some results and in the search for the next one, comes from
the first stack by such turns (`Walk.exists_iterate_next`). So every frame comes from the first one
by opening (`Walk.reaches_of_mem_stack`), which takes one operation off at a time
(`Frame.Opens.ops_eq`).
-/

namespace DocPath

open Relation (ReflTransGen)

/-! ### Frames -/

namespace Frame

/-- The frame goes on as the other one, perhaps among more. -/
def Opens (f g : Frame) : Prop :=
  ∃ values trail, f.visit = .branches values trail ∧ g ∈ f.next values trail

variable {f g : Frame}

/-- Only a frame with operations still to come goes on, past the first of them. -/
theorem Opens.ops_eq (h : f.Opens g) : ∃ op, f.ops = op :: g.ops := by
  obtain ⟨values, trail, hvisit, hg⟩ := h
  obtain ⟨v, -, rfl⟩ := List.mem_map.1 hg
  obtain ⟨ops, value, t⟩ := f
  cases ops with
  | nil =>
    rw [visit, DocPath.visit] at hvisit
    split at hvisit <;> cases hvisit
  | cons op rest => exact ⟨op, rfl⟩

/-- What is still to come of a frame is the end of what was to come before. -/
theorem ops_suffix_of_reaches (h : ReflTransGen Opens f g) : g.ops <:+ f.ops := by
  induction h with
  | refl => exact List.suffix_rfl
  | tail _ hopens ih =>
    obtain ⟨op, hops⟩ := hopens.ops_eq
    exact .trans ⟨[op], hops.symm⟩ ih

/-- The operation directly before what is still to come of a frame is the one by which the frame was
opened. -/
theorem exists_opens_of_reaches (h : ReflTransGen Opens f g) {before : List Op} {op : Op}
    (hops : f.ops = before ++ op :: g.ops) :
    ∃ opener, ReflTransGen Opens f opener ∧ opener.Opens g ∧ opener.ops = op :: g.ops := by
  -- The last step of the way opened the frame. Its opener and the whole way end alike in what is
  -- still to come, so they also agree on the operation before that.
  cases h with
  | refl =>
    have hlength := congrArg List.length hops
    simp only [List.length_append, List.length_cons] at hlength
    omega
  | @tail opener _ hreaches hopens =>
    obtain ⟨op', hop'⟩ := hopens.ops_eq
    obtain ⟨before', hbefore'⟩ := ops_suffix_of_reaches hreaches
    rw [hop', hops] at hbefore'
    obtain ⟨-, hsame⟩ := List.append_inj' hbefore' rfl
    rw [(List.cons.inj hsame).1] at hop'
    exact ⟨opener, hreaches, hopens, hop'⟩

end Frame

/-! ### Stacks -/

namespace Walk

/-- The stack after the visit of its first frame. -/
def visitTop : List Frame → List Frame
  | [] => []
  | f :: rest =>
    match f.visit with
    | .pruned => rest
    | .item _ => rest
    | .failure _ => []
    | .branches values trail => f.next values trail ++ rest

/-- A frame of the stack after a visit was there before, or is opened by one that was. -/
theorem mem_visitTop {stack : List Frame} {g : Frame} (h : g ∈ visitTop stack) :
    g ∈ stack ∨ ∃ f ∈ stack, f.Opens g := by
  cases stack with
  | nil => exact .inl h
  | cons f rest =>
    rw [visitTop] at h
    split at h
    next => exact .inl (List.mem_cons_of_mem f h)
    next => exact .inl (List.mem_cons_of_mem f h)
    next => cases h
    next values trail hvisit =>
      rcases List.mem_append.1 h with h | h
      · exact .inr ⟨f, List.mem_cons_self, values, trail, hvisit, h⟩
      · exact .inl (List.mem_cons_of_mem f h)

/-- All frames ever on the stack come from those on it at first. -/
theorem reaches_of_mem_iterate {stack : List Frame} {n : Nat} {g : Frame}
    (h : g ∈ visitTop^[n] stack) : ∃ f ∈ stack, ReflTransGen Frame.Opens f g := by
  induction n generalizing g with
  | zero => exact ⟨g, h, .refl⟩
  | succ n ih =>
    rw [Function.iterate_succ_apply'] at h
    rcases mem_visitTop h with h | ⟨f, hf, hopens⟩
    · exact ih h
    · obtain ⟨f₀, hf₀, hreaches⟩ := ih hf
      exact ⟨f₀, hf₀, hreaches.tail hopens⟩

/-- The search for a result is a number of visits. -/
theorem exists_iterate_advance (stack : List Frame) :
    ∃ n, (advance stack).2 = visitTop^[n] stack := by
  fun_induction advance stack with
  | case1 => exact ⟨0, rfl⟩
  | case2 f rest hvisit ih =>
    obtain ⟨n, ih⟩ := ih
    refine ⟨n + 1, ?_⟩
    rw [Function.iterate_succ_apply, ih, visitTop, hvisit]
  | case3 f rest v hvisit => exact ⟨1, by rw [Function.iterate_one, visitTop, hvisit]⟩
  | case4 f rest e hvisit => exact ⟨1, by rw [Function.iterate_one, visitTop, hvisit]⟩
  | case5 f rest values trail hvisit ih =>
    obtain ⟨n, ih⟩ := ih
    refine ⟨n + 1, ?_⟩
    rw [Function.iterate_succ_apply, ih, visitTop, hvisit]

/-- The stack that is left after some results comes from the first one by visits. -/
theorem exists_iterate_next (w : Walk) (k : Nat) :
    ∃ n, ((fun w : Walk => w.next.2)^[k] w).stack = visitTop^[n] w.stack := by
  induction k with
  | zero => exact ⟨0, rfl⟩
  | succ k ih =>
    obtain ⟨n, hn⟩ := ih
    rw [Function.iterate_succ_apply']
    obtain ⟨m, hm⟩ := exists_iterate_advance ((fun w : Walk => w.next.2)^[k] w).stack
    refine ⟨m + n, ?_⟩
    rw [Function.iterate_add_apply, ← hn]
    exact hm

/-- Every frame of a walk, at any time, comes from the frame of the whole path. -/
theorem reaches_of_mem_stack {p : Path} {root : Value} {k n : Nat} {f : Frame}
    (h : f ∈ visitTop^[n] ((fun w : Walk => w.next.2)^[k] (start p root)).stack) :
    ReflTransGen Frame.Opens ⟨p.ops, .shared root, []⟩ f := by
  obtain ⟨m, hm⟩ := exists_iterate_next (start p root) k
  rw [hm, ← Function.iterate_add_apply] at h
  obtain ⟨first, hfirst, hreaches⟩ := reaches_of_mem_iterate h
  rwa [List.mem_singleton.1 hfirst] at hreaches

end Walk

end DocPath
