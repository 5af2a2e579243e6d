import DocPath.Path.Apply
import DocPath.Path.Render

/-!
# DocPath.Path.Walk

The walk of a document along a path, lazily and depth first. Pending branches stand on a stack of
frames, the next one on top. Each frame is visited once: its branch ends, or gives an item, or
fails, or goes on as several branches, which are pushed in order.

Null ends a branch unless the next operation lets it through. An index on something else than a
sequence is a failure, which ends the whole walk.

`Frame.work` is the number of visits that a frame will cause, itself included. It is the measure by
which `Walk.next` ends.
-/

namespace DocPath

/-- Why a walk ends early. -/
inductive WalkError where
  /-- An index, given as its text, is applied to something else than a sequence. -/
  | notASequence (index : String) (found : String)
  deriving DecidableEq, Repr

/-- The message of a failed walk. -/
def WalkError.message : WalkError → String
  | notASequence index found =>
    "Index '" ++ index ++ "' can only be used on a list, found " ++ found

/-- Whether null goes on through an operation. -/
def Op.letsNullThrough : Op → Bool
  | step (.default _) => true
  | step .divider => true
  | step .anyEntry => true
  | _ => false

/-- The branches that an index opens from a sequence of a length. A single element that is itself a
sequence opens one branch for each of its own elements. -/
def Index.branches (i : Index) (length : Nat) (h : Held) : List Held :=
  match i.select length with
  | .all => h.elements 0 length
  | .slice start stop => h.elements start stop
  | .element none => []
  | .element (some n) =>
    match (h.elements n (n + 1)).getLast? with
    | none => []
    | some element =>
      match element.value with
      | .sequence inner => element.elements 0 inner.length
      | _ => [element]

/-- The item that the end of a branch gives: its value, or the captured values and its value. -/
def finish (h : Held) (trail : Trail) : Value :=
  if trail.isEmpty then h.value else .sequence (trail.map Held.value ++ [h.value])

/-- What the visit of a branch finds. -/
inductive Visit where
  /-- The branch gives nothing. -/
  | pruned
  /-- The branch gives an item. -/
  | item (v : Value)
  /-- The walk fails. -/
  | failure (e : WalkError)
  /-- The branch goes on, past its first operation, from each of some values. -/
  | branches (values : List Held) (trail : Trail)

/-- Visits a branch with operations still to come, a value and a trail. -/
def visit (h : Held) (trail : Trail) : List Op → Visit
  | [] => if h.isNull then .pruned else .item (finish h trail)
  | op :: _ =>
    -- Null ends the branch before the operation is applied, so captures and indexes never see it.
    if h.isNull && !op.letsNullThrough then .pruned
    else match op with
      | .alternatives paths =>
        let (results, trail) := evaluate h trail paths
        .item (.sequence (trail.map Held.value ++ results))
      | .step (.index i) =>
        match h.value with
        | .sequence items => .branches (i.branches items.length h) trail
        | v => .failure (.notASequence i.text v.kindName)
      | .step s =>
        let (h, trail) := s.apply h trail
        .branches [h] trail

/-- The sum of numbers. -/
def total : List Nat → Nat
  | [] => 0
  | n :: rest => n + total rest

@[simp] theorem total_nil : total [] = 0 := rfl

@[simp] theorem total_cons (n : Nat) (rest : List Nat) : total (n :: rest) = n + total rest := rfl

@[simp] theorem total_append (xs ys : List Nat) : total (xs ++ ys) = total xs + total ys := by
  induction xs with
  | nil => simp
  | cons n rest ih => simp [ih, Nat.add_assoc]

/-- The number of visits that a branch causes, its own included. -/
def work (h : Held) (trail : Trail) : List Op → Nat
  | [] => 1
  | op :: rest =>
    match visit h trail (op :: rest) with
    | .branches values trail => 1 + total (values.map fun v => work v trail rest)
    | _ => 1

/-- A pending branch. -/
structure Frame where
  /-- The operations still to come. -/
  ops : List Op
  value : Held
  trail : Trail

namespace Frame

/-- What the visit of a frame finds. -/
def visit (f : Frame) : Visit := DocPath.visit f.value f.trail f.ops

/-- The number of visits that a frame causes, its own included. -/
def work (f : Frame) : Nat := DocPath.work f.value f.trail f.ops

/-- The frames for branches that go on from values. -/
def next (f : Frame) (values : List Held) (trail : Trail) : List Frame :=
  values.map fun v => ⟨f.ops.tail, v, trail⟩

theorem work_pos (f : Frame) : 0 < f.work := by
  obtain ⟨ops, value, trail⟩ := f
  cases ops with
  | nil => simp [work, DocPath.work]
  | cons op rest =>
    simp only [work, DocPath.work]
    split <;> omega

/-- A frame that goes on causes its own visit and those of the frames it goes on as. -/
theorem work_of_branches {f : Frame} {values : List Held} {trail : Trail}
    (h : f.visit = .branches values trail) :
    f.work = 1 + total ((f.next values trail).map work) := by
  obtain ⟨ops, value, t⟩ := f
  cases ops with
  | nil =>
    simp only [visit, DocPath.visit] at h
    split at h <;> simp at h
  | cons op rest =>
    simp only [visit] at h
    simp [work, DocPath.work, h, next, Function.comp_def]

end Frame

/-- The frames that are still to be visited, the next one first. -/
structure Walk where
  stack : List Frame

namespace Walk

/-- The walk of a document along a path, before its first step. -/
def start (p : Path) (root : Value) : Walk :=
  ⟨[⟨p.ops, .shared root, []⟩]⟩

/-- The number of visits that the frames of a stack cause. -/
def workOf (stack : List Frame) : Nat := total (stack.map Frame.work)

/-- Visits frames until there is an item, a failure, which clears the stack, or no frame left. -/
def advance : List Frame → Option (Except WalkError Value) × List Frame
  | [] => (none, [])
  | f :: rest =>
    match _h : f.visit with
    | .pruned => advance rest
    | .item v => (some (.ok v), rest)
    | .failure e => (some (.error e), [])
    | .branches values trail => advance (f.next values trail ++ rest)
termination_by stack => workOf stack
decreasing_by
  · have := f.work_pos
    simp only [workOf, List.map_cons, total_cons]
    omega
  · simp only [workOf, List.map_append, total_append, List.map_cons, total_cons,
      Frame.work_of_branches _h]
    omega

/-- The next item or failure of a walk, if there is one, and the walk after it. -/
def next (w : Walk) : Option (Except WalkError Value) × Walk :=
  let (result, stack) := advance w.stack
  (result, ⟨stack⟩)

/-- A result takes at least one visit. -/
theorem workOf_advance_lt {stack rest : List Frame} {r : Except WalkError Value}
    (h : advance stack = (some r, rest)) : workOf rest < workOf stack := by
  fun_induction advance stack with
  | case1 => simp at h
  | case2 f frames hv ih =>
    have := ih h
    simp only [workOf, List.map_cons, total_cons] at this ⊢
    omega
  | case3 f frames v hv =>
    have := f.work_pos
    simp only [Prod.mk.injEq] at h
    simp only [workOf, List.map_cons, total_cons, h.2]
    omega
  | case4 f frames e hv =>
    have := f.work_pos
    simp only [Prod.mk.injEq] at h
    simp only [workOf, List.map_cons, total_cons, ← h.2, List.map_nil, total_nil]
    omega
  | case5 f frames values trail hv ih =>
    have := ih h
    simp only [workOf, List.map_append, total_append, List.map_cons, total_cons,
      Frame.work_of_branches hv] at this ⊢
    omega

/-- All results that the frames of a stack still give. -/
def resultsOf (stack : List Frame) : List (Except WalkError Value) :=
  match _h : advance stack with
  | (none, _) => []
  | (some r, rest) => r :: resultsOf rest
termination_by workOf stack
decreasing_by exact workOf_advance_lt _h

/-- All results that a walk still gives: its items, and its failure last. -/
def results (w : Walk) : List (Except WalkError Value) :=
  resultsOf w.stack

end Walk

/-- The items of a list of results, or the first failure. -/
def collect : List (Except ε α) → Except ε (List α)
  | [] => .ok []
  | .error e :: _ => .error e
  | .ok a :: rest => (collect rest).map (a :: ·)

/-- All items of the walk of a document along a path, or its failure. -/
def Path.values (p : Path) (root : Value) : Except WalkError (List Value) :=
  collect (Walk.start p root).results

end DocPath
