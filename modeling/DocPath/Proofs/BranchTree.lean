import DocPath.Proofs.Meaning
import DocPath.Proofs.Visits

/-!
# DocPath.Proofs.BranchTree

How much work a walk is. A path opens a tree of branches from a document (`branchTree`): a node is a
branch in front of an operation, or at the end of the path, and below it are the branches that it
goes on as. The tree knows nothing of frames, stacks or captures, and it can be computed.

A walk visits every node once, unless it fails on the way. `Search` and `Run` count the visits, that
of a call and those of all calls until there is nothing left; they are relations, so that a loop
without an end would have no count. Visits and nodes are brought together by `work`, which is the
size of the tree below a frame (`work_eq_nodes`) and goes down by one with each visit
(`Walk.workOf_visitTop`).
-/

namespace DocPath

/-! ### The tree of branches -/

/-- Branches, each with those that it goes on as. -/
inductive BranchTree where
  | node (v : Value) (below : List BranchTree)

namespace BranchTree

/-- The number of nodes. -/
def nodes : BranchTree → Nat
  | node _ below => 1 + total (below.map nodes)

theorem nodes_node (v : Value) (below : List BranchTree) :
    (node v below).nodes = 1 + total (below.map nodes) := by
  rw [nodes]

end BranchTree

/-- The values with which a branch goes on past an operation. It ends there if null is not let
through, with the item of an alternation, and with the failure of an index. -/
def Op.successors (v : Value) (op : Op) : List Value :=
  if v.isNull && !op.letsNullThrough then []
  else match op with
    | .alternatives _ => []
    | .step (.index i) =>
      match v with
      | .sequence items => i.opened items
      | _ => []
    | .step s => [s.on v]

/-- The branches that operations open from a value, one node for each branch and operation, and one
for each end. -/
def branchTree (v : Value) : List Op → BranchTree
  | [] => .node v []
  | op :: rest => .node v ((op.successors v).map fun w => branchTree w rest)

/-- The branches that a path opens from a document. -/
def Path.branchTree (p : Path) (root : Value) : BranchTree :=
  DocPath.branchTree root p.ops

/-! ### The work of a frame -/

/-- The values of the branches that a visit finds. -/
def Visit.values : Visit → List Value
  | branches values _ => values.map Held.value
  | _ => []

/-- A visit finds the branches that stand below its own. -/
theorem values_visit (h : Held) (trail : Trail) (op : Op) (rest : List Op) :
    (visit h trail (op :: rest)).values = op.successors h.value := by
  cases hnull : h.isNull && !op.letsNullThrough with
  | true =>
    have hvalue : (h.value.isNull && !op.letsNullThrough) = true := hnull
    simp only [visit, Op.successors, hnull, hvalue, if_true, Visit.values]
  | false =>
    have hvalue : (h.value.isNull && !op.letsNullThrough) = false := hnull
    simp only [visit, Op.successors, hnull, hvalue, Bool.false_eq_true, if_false]
    cases op with
    | alternatives paths => rfl
    | step s =>
      cases s with
      | index i =>
        cases hv : h.value with
        | sequence items => exact i.value_branches hv
        | _ => rfl
      | _ => exact congrArg (fun v => [v]) (Step.value_apply _ h trail).1

/-- The work of a branch is the size of the tree below it. -/
theorem work_eq_nodes (h : Held) (trail : Trail) (ops : List Op) :
    work h trail ops = (branchTree h.value ops).nodes := by
  induction ops generalizing h trail with
  | nil => rw [work, branchTree, BranchTree.nodes_node, List.map_nil, total_nil]
  | cons op rest ih =>
    rw [work, branchTree, BranchTree.nodes_node, ← values_visit h trail op rest]
    cases visit h trail (op :: rest) with
    | branches values trail' =>
      simp only [Visit.values, List.map_map, ih]
      rfl
    | _ => rfl

namespace Frame

/-- A frame that does not go on is visited, and that is all. -/
theorem work_of_ends {f : Frame} (h : ∀ values trail, f.visit ≠ .branches values trail) :
    f.work = 1 := by
  obtain ⟨ops, value, trail⟩ := f
  cases ops with
  | nil => rfl
  | cons op rest =>
    rw [work, DocPath.work]
    split
    next values trail' hvisit => exact absurd hvisit (h values trail')
    next => rfl

end Frame

/-! ### Counting visits -/

/-- The result that a visit gives, if it gives one. -/
def Visit.result? : Visit → Option (Except WalkError Value)
  | item v => some (.ok v)
  | failure e => some (.error e)
  | _ => none

namespace Walk

/-- With so many visits the search for the next result comes to its end: it gives a result, or none
if no frame is left, and leaves a stack. -/
inductive Search : List Frame → Nat → Option (Except WalkError Value) → List Frame → Prop
  | exhausted : Search [] 0 none []
  | found {f : Frame} {rest : List Frame} {r : Except WalkError Value} : f.visit.result? = some r →
      Search (f :: rest) 1 (some r) (visitTop (f :: rest))
  | goesOn {f : Frame} {rest left : List Frame} {n : Nat} {r : Option (Except WalkError Value)} :
      f.visit.result? = none → Search (visitTop (f :: rest)) n r left →
      Search (f :: rest) (n + 1) r left

/-- With so many visits in all, one search after the other comes to its end, until there is no
result any more. -/
inductive Run : List Frame → Nat → List (Except WalkError Value) → Prop
  | ends {stack left : List Frame} {n : Nat} : Search stack n none left → Run stack n []
  | result {stack left : List Frame} {n m : Nat} {r : Except WalkError Value}
      {results : List (Except WalkError Value)} : Search stack n (some r) left →
      Run left m results → Run stack (n + m) (r :: results)

/-- The search ends, and it is the one that `next` makes. -/
theorem exists_search (stack : List Frame) :
    ∃ n, Search stack n (advance stack).1 (advance stack).2 := by
  fun_induction advance stack with
  | case1 => exact ⟨0, .exhausted⟩
  | case2 f rest hvisit ih =>
    obtain ⟨n, ih⟩ := ih
    refine ⟨n + 1, .goesOn (by rw [hvisit]; rfl) ?_⟩
    rwa [visitTop, hvisit]
  | case3 f rest v hvisit =>
    have hfound : Search (f :: rest) 1 _ _ := .found (by rw [hvisit]; rfl)
    rw [visitTop, hvisit] at hfound
    exact ⟨1, hfound⟩
  | case4 f rest e hvisit =>
    have hfound : Search (f :: rest) 1 _ _ := .found (by rw [hvisit]; rfl)
    rw [visitTop, hvisit] at hfound
    exact ⟨1, hfound⟩
  | case5 f rest values trail hvisit ih =>
    obtain ⟨n, ih⟩ := ih
    refine ⟨n + 1, .goesOn (by rw [hvisit]; rfl) ?_⟩
    rwa [visitTop, hvisit]

/-- The searches end, and their results are those of the walk. -/
theorem exists_run (stack : List Frame) : ∃ n, Run stack n (resultsOf stack) := by
  fun_induction resultsOf stack with
  | case1 stack rest h =>
    obtain ⟨n, hsearch⟩ := exists_search stack
    rw [h] at hsearch
    exact ⟨n, .ends hsearch⟩
  | case2 stack r rest h ih =>
    obtain ⟨n, hsearch⟩ := exists_search stack
    obtain ⟨m, hrun⟩ := ih
    rw [h] at hsearch
    exact ⟨n + m, .result hsearch hrun⟩

theorem Search.unique {stack left left' : List Frame} {n n' : Nat}
    {r r' : Option (Except WalkError Value)} (h : Search stack n r left)
    (h' : Search stack n' r' left') : n = n' ∧ r = r' ∧ left = left' := by
  induction h generalizing n' with
  | exhausted =>
    cases h'
    exact ⟨rfl, rfl, rfl⟩
  | found hr =>
    cases h' with
    | found hr' => exact ⟨rfl, hr.symm.trans hr', rfl⟩
    | goesOn hr' => cases hr.symm.trans hr'
  | goesOn hr _ ih =>
    cases h' with
    | found hr' => cases hr.symm.trans hr'
    | goesOn _ h' =>
      obtain ⟨rfl, hrest⟩ := ih h'
      exact ⟨rfl, hrest⟩

theorem Run.unique {stack : List Frame} {n n' : Nat}
    {results results' : List (Except WalkError Value)} (h : Run stack n results)
    (h' : Run stack n' results') : n = n' ∧ results = results' := by
  induction h generalizing n' results' with
  | ends h =>
    cases h' with
    | ends h' => exact ⟨(h.unique h').1, rfl⟩
    | result h' => cases (h.unique h').2.1
  | result h _ ih =>
    cases h' with
    | ends h' => cases (h.unique h').2.1
    | result h' hrun =>
      obtain ⟨rfl, hr, rfl⟩ := h.unique h'
      obtain ⟨rfl, rfl⟩ := ih hrun
      exact ⟨rfl, by rw [Option.some.inj hr]⟩

/-! ### Visits against the work of a stack -/

theorem workOf_cons (f : Frame) (rest : List Frame) :
    workOf (f :: rest) = f.work + workOf rest := rfl

/-- A visit is one piece of work, and it leaves the others, unless it fails and leaves none. -/
theorem workOf_visitTop (f : Frame) (rest : List Frame) :
    1 + workOf (visitTop (f :: rest)) ≤ workOf (f :: rest) ∧
      ((∀ e, f.visit.result? ≠ some (.error e)) →
        1 + workOf (visitTop (f :: rest)) = workOf (f :: rest)) := by
  rw [workOf_cons, visitTop]
  cases hvisit : f.visit with
  | pruned =>
    have hwork : f.work = 1 := f.work_of_ends (by simp [hvisit])
    exact ⟨Nat.le_of_eq (by rw [hwork]), fun _ => by rw [hwork]⟩
  | item v =>
    have hwork : f.work = 1 := f.work_of_ends (by simp [hvisit])
    exact ⟨Nat.le_of_eq (by rw [hwork]), fun _ => by rw [hwork]⟩
  | failure e =>
    have hle : 1 + workOf [] ≤ f.work + workOf rest := Nat.le_add_right_of_le f.work_pos
    exact ⟨hle, fun h => absurd rfl (h e)⟩
  | branches values trail =>
    have heq : 1 + workOf (f.next values trail ++ rest) = f.work + workOf rest := by
      rw [Frame.work_of_branches hvisit, workOf, List.map_append, total_append, workOf,
        Nat.add_assoc]
    exact ⟨Nat.le_of_eq heq, fun _ => heq⟩

theorem Search.left_eq_nil {stack left : List Frame} {n : Nat} (h : Search stack n none left) :
    left = [] := by
  generalize hr : (none : Option (Except WalkError Value)) = r at h
  induction h with
  | exhausted => rfl
  | found => cases hr
  | goesOn _ _ ih => exact ih hr

/-- What a search leaves is less by its visits, unless it finds a failure. -/
theorem Search.work {stack left : List Frame} {n : Nat} {r : Option (Except WalkError Value)}
    (h : Search stack n r left) : n + workOf left ≤ workOf stack ∧
      ((∀ e, r ≠ some (.error e)) → n + workOf left = workOf stack) := by
  induction h with
  | exhausted => exact ⟨Nat.le_refl _, fun _ => rfl⟩
  | @found f rest r hr =>
    obtain ⟨hle, heq⟩ := workOf_visitTop f rest
    exact ⟨hle, fun hok => heq fun e he => hok e (hr.symm.trans he)⟩
  | @goesOn f rest left n r hr _ ih =>
    obtain ⟨hle, heq⟩ := workOf_visitTop f rest
    have heq := heq fun e he => by cases hr.symm.trans he
    refine ⟨by omega, fun hok => ?_⟩
    have hleft := ih.2 hok
    omega

/-- The visits of a run are no more than the work of the stack, and as many if nothing fails. -/
theorem Run.work {stack : List Frame} {n : Nat} {results : List (Except WalkError Value)}
    (h : Run stack n results) : n ≤ workOf stack ∧
      ((∀ e, .error e ∉ results) → n = workOf stack) := by
  induction h with
  | ends h =>
    obtain ⟨hle, heq⟩ := h.work
    obtain rfl := h.left_eq_nil
    exact ⟨hle, fun _ => heq nofun⟩
  | @result stack left n m r results h _ ih =>
    obtain ⟨hle, heq⟩ := h.work
    refine ⟨by omega, fun hok => ?_⟩
    have hleft := ih.2 fun e he => hok e (List.mem_cons_of_mem r he)
    have hstack := heq fun e he => hok e (by rw [Option.some.inj he]; exact List.mem_cons_self)
    omega

end Walk

/-! ### Where frames stand -/

/-- The frame stands in front of the operation at a place of the path, or at its end. -/
def Frame.StandsAt (p : Path) (i : Nat) (f : Frame) : Prop :=
  i ≤ p.ops.length ∧ f.ops = p.ops.drop i

variable {p : Path} {root : Value} {f : Frame} {rest : List Frame}

/-- Every frame ever on the stack stands somewhere on the path. -/
theorem Walk.exists_standsAt {m : Nat} (h : f ∈ visitTop^[m] (start p root).stack) :
    ∃ i, f.StandsAt p i := by
  obtain ⟨first, hfirst, hreaches⟩ := reaches_of_mem_iterate h
  rw [List.mem_singleton.1 hfirst] at hreaches
  refine ⟨p.ops.length - f.ops.length, Nat.sub_le _ _, ?_⟩
  exact List.suffix_iff_eq_drop.1 (Frame.ops_suffix_of_reaches hreaches)

/-- A visit takes the first frame off and puts frames in its place that stand one operation further
on; a failure clears the stack. -/
theorem Walk.visitTop_cons {i : Nat} (h : f.StandsAt p i) (rest : List Frame) :
    (∃ e, f.visit = .failure e ∧ visitTop (f :: rest) = []) ∨
      ∃ opened, visitTop (f :: rest) = opened ++ rest ∧ ∀ g ∈ opened, g.StandsAt p (i + 1) := by
  rw [visitTop]
  cases hvisit : f.visit with
  | pruned => exact Or.inr ⟨[], rfl, List.forall_mem_nil _⟩
  | item v => exact Or.inr ⟨[], rfl, List.forall_mem_nil _⟩
  | failure e => exact Or.inl ⟨e, rfl, rfl⟩
  | branches values trail =>
    refine Or.inr ⟨f.next values trail, rfl, fun g hg => ?_⟩
    have hopens : f.Opens g := ⟨values, trail, hvisit, hg⟩
    obtain ⟨op, hops⟩ := hopens.ops_eq
    rw [h.2] at hops
    have hlt : i < p.ops.length := by
      by_contra hge
      rw [List.drop_eq_nil_of_le (Nat.le_of_not_lt hge)] at hops
      cases hops
    rw [List.drop_eq_getElem_cons hlt] at hops
    exact ⟨hlt, (List.cons.inj hops).2.symm⟩

/-- **A walk ends, after no more visits than its branches have nodes.** Every call comes to its end,
whatever the walk stands at. Every frame that is ever on the stack stands at a place of the path,
and a visit puts frames in its place that stand at the next, or fails and leaves none. All calls
together end after a number of visits that is settled by the path and the document: it is at most
the number of nodes of the tree of branches, and just that if nothing fails. -/
theorem walk_ends (p : Path) (root : Value) :
    (∀ w : Walk, ∃ n, Walk.Search w.stack n w.next.1 w.next.2.stack) ∧
    (∀ m, ∀ f ∈ Walk.visitTop^[m] (Walk.start p root).stack, ∃ i, f.StandsAt p i ∧ ∀ rest,
      (∃ e, f.visit = .failure e ∧ Walk.visitTop (f :: rest) = []) ∨
      ∃ opened, Walk.visitTop (f :: rest) = opened ++ rest ∧ ∀ g ∈ opened, g.StandsAt p (i + 1)) ∧
    ∃ n, (∀ m results, Walk.Run (Walk.start p root).stack m results ↔
        m = n ∧ results = (Walk.start p root).results) ∧
      n ≤ (p.branchTree root).nodes ∧
      ((∀ e, .error e ∉ (Walk.start p root).results) → n = (p.branchTree root).nodes) := by
  have hwork : Walk.workOf (Walk.start p root).stack = (p.branchTree root).nodes :=
    work_eq_nodes (.shared root) [] p.ops
  obtain ⟨n, hrun⟩ := Walk.exists_run (Walk.start p root).stack
  refine ⟨fun w => Walk.exists_search w.stack, fun m f hf => ?_, n, fun m results => ?_, ?_⟩
  · obtain ⟨i, hi⟩ := Walk.exists_standsAt hf
    exact ⟨i, hi, Walk.visitTop_cons hi⟩
  · constructor
    · exact fun h => h.unique hrun
    · rintro ⟨rfl, rfl⟩
      exact hrun
  · rw [← hwork]
    exact hrun.work

end DocPath
