import RedBlack.Proofs.Engine.Iteration
import RedBlack.Proofs.Engine.Reachable
import RedBlack.Proofs.Tree.Height

/-!
# Iterators and Their Clones

Iterators over one tree, each at a position in the list of its entries. `Iterator.uses` follows
any number of them, which begin as clones of one another; `Iterator.reads` is the same with
positions alone: a step answers with what stands in the list and moves the position on, so no
entry is yielded twice and none out of order.

Over every reachable tree the two agree (`Engine.iterators_exact`), whatever has been done and
with whichever clone, and what an iterator counts and stores is exact at every position
(`Iterator.Exact`).
-/

namespace RedBlack

open RedBlack.Tree (Path)

variable {K V : Type}

/-! ## Uses -/

namespace Iterator

/-- A use of one of several iterators, which are numbered in the order of their creation. -/
inductive Use where
  /-- Take a step. -/
  | step (index : Nat) (step : Session.IteratorStep)
  /-- Create one more, as a clone. -/
  | clone (index : Nat)

/-- Use one of several iterators. Only a step has an answer; an iterator that does not exist has
none. -/
def use (view : Session.View) (iterators : List (Iterator K V)) :
    Use → Except Fault (Option (Session.Reply K V) × List (Iterator K V))
  | .step index step =>
    match iterators[index]? with
    | none => return (none, iterators)
    | some iterator => do
      let (reply, iterator) ← Session.iteratorStep view iterator step
      return (some reply, iterators.set index iterator)
  | .clone index => return (none, iterators ++ iterators[index]?.toList)

/-- Use iterators one after the other. -/
def uses (view : Session.View) : List Use → List (Iterator K V) →
    Except Fault (List (Option (Session.Reply K V)) × List (Iterator K V))
  | [], iterators => return ([], iterators)
  | first :: rest, iterators => do
    let (reply, iterators) ← use view iterators first
    let (replies, iterators) ← uses view rest iterators
    return (reply :: replies, iterators)

/-! ## Positions -/

/-- Take a step at a position in a list. -/
def readAt (view : Session.View) (entries : List (K × V)) (position : Nat) :
    Session.IteratorStep → Session.Reply K V × Nat
  | .next => (.ofOption (fun entry => .item (view.item entry)) entries[position]?, position + 1)
  | .nth skipped =>
    (.ofOption (fun entry => .item (view.item entry)) entries[position + skipped]?,
      position + skipped + 1)
  | .length => (.number (entries.length - position), position)
  | .sizeHint => (.bounds (entries.length - position) (entries.length - position), position)
  | .fork => (.items ((entries.drop position).map view.item), position)
  | .rest => (.items ((entries.drop position).map view.item), entries.length)

/-- Use one of several positions. -/
def read (view : Session.View) (entries : List (K × V)) (positions : List Nat) :
    Use → Option (Session.Reply K V) × List Nat
  | .step index step =>
    match positions[index]? with
    | none => (none, positions)
    | some position =>
      let (reply, position) := readAt view entries position step
      (some reply, positions.set index position)
  | .clone index => (none, positions ++ positions[index]?.toList)

/-- Use positions one after the other. -/
def reads (view : Session.View) (entries : List (K × V)) :
    List Use → List Nat → List (Option (Session.Reply K V)) × List Nat
  | [], positions => ([], positions)
  | first :: rest, positions =>
    let (reply, positions) := read view entries positions first
    let (replies, positions) := reads view entries rest positions
    (reply :: replies, positions)

/-- A step over the entries that are left is a step at their position. -/
theorem listStep_drop (view : Session.View) (entries : List (K × V)) (position : Nat)
    (step : Session.IteratorStep) :
    Session.listStep view (entries.drop position) step =
      ((readAt view entries position step).1,
        entries.drop (readAt view entries position step).2) := by
  cases step with
  | next => simp [Session.listStep, readAt]
  | nth skipped => simp [Session.listStep, readAt, Nat.add_assoc]
  | length => simp [Session.listStep, readAt]
  | sizeHint => simp [Session.listStep, readAt]
  | fork => rfl
  | rest => simp [Session.listStep, readAt]

/-! ## Exactness -/

/-- The iterator is at a position of the tree, and everything about it says so. -/
structure Exact (iterator : Iterator K V) (shape : Tree (K × V)) (position : Nat) : Prop where
  /-- The entries to come are counted. -/
  remaining : iterator.remaining = shape.toList.length - position
  /-- Both bounds are the number of entries to come. -/
  bounds : iterator.sizeHint = (shape.toList.length - position, shape.toList.length - position)
  /-- Everything from the position on is still to come, in order. -/
  toCome : ∃ after, iterator.collect = .ok (shape.toList.drop position, after)
  /-- No more nodes are stored than lie on a path of the tree. -/
  pending : iterator.pending.length ≤ shape.height
  /-- An iterator that has yielded nothing once yields nothing ever after, and stays as it is. -/
  fused : ∀ skipped after, iterator.nth skipped = .ok (none, after) →
    after.remaining = 0 ∧ ∀ skipped, after.nth skipped = .ok (none, after)

variable {iterator : Iterator K V} {linked : LinkedTree K V} {path : Path (Cell K V)}
  {entries : List (K × V)} {position : Nat}

/-- At the end, nothing is skipped either. -/
theorem nth_of_next_eq_none (h : iterator.next = .ok (none, iterator)) (skipped : Nat) :
    iterator.nth skipped = .ok (none, iterator) := by
  cases skipped with
  | zero => exact h
  | succ skipped =>
    simp only [nth, h]
    rfl

/-- An iterator that has yielded nothing is at the end. -/
theorem At.of_nth_eq_none (h : iterator.At linked path) {skipped : Nat}
    {after : Iterator K V} (hnth : iterator.nth skipped = .ok (none, after)) :
    after.remaining = 0 ∧ ∀ skipped, after.nth skipped = .ok (none, after) := by
  obtain ⟨other, place, heq, hat, hdrop⟩ := h.nth_eq_ok skipped
  simp only [heq, Except.ok.injEq, Prod.mk.injEq] at hnth
  obtain ⟨hnone, rfl⟩ := hnth
  -- too few entries were to come, so none is to come now
  have hlength : (toCome path).length ≤ skipped := List.getElem?_eq_none_iff.1 hnone
  have hempty : toCome place = [] := by
    rw [hdrop]
    exact List.drop_eq_nil_of_le (Nat.le_succ_of_le hlength)
  refine ⟨hat.remaining_eq.trans (congrArg List.length hempty), ?_⟩
  exact nth_of_next_eq_none (hat.next_of_nil (List.map_eq_nil_iff.1 hempty))

/-- What an iterator at a place of the tree counts, stores and still yields. -/
theorem At.exact (h : iterator.At linked path) {shape : Tree (K × V)}
    (hshape : linked.toTree = .ok shape) (hcome : toCome path = shape.toList.drop position) :
    iterator.Exact shape position := by
  have hremaining : iterator.remaining = shape.toList.length - position := by
    rw [h.remaining_eq, hcome, List.length_drop]
  obtain ⟨after, place, hcollect, -⟩ := h.collect_eq_ok
  rw [hcome] at hcollect
  refine ⟨hremaining, by rw [sizeHint, hremaining], ⟨after, hcollect⟩, ?_,
    fun _ _ => h.of_nth_eq_none⟩
  -- the tree around the place is the one that is read off
  cases h.depicts.toTree_eq_ok.symm.trans hshape
  rw [h.pending, Path.pending, List.length_map, Tree.entries, Tree.height_map]
  exact Path.length_turns_le path

/-! ## Runs -/

/-- The iterator stands somewhere in the linked tree, with the entries from a position on to
come. -/
def Reads (linked : LinkedTree K V) (entries : List (K × V)) (iterator : Iterator K V)
    (position : Nat) : Prop :=
  ∃ path, iterator.At linked path ∧ toCome path = entries.drop position

/-- Lists that are related entry by entry have related entries at every index. -/
theorem rel_getElem? {α β : Type} {R : α → β → Prop} {list : List α} {other : List β}
    (h : List.Forall₂ R list other) (index : Nat) :
    Option.Rel R list[index]? other[index]? := by
  induction h generalizing index with
  | nil => exact .none
  | cons hfirst _ ih =>
    cases index with
    | zero => exact .some hfirst
    | succ index => exact ih index

/-- They stay related if both change at the same index. -/
theorem forall₂_set {α β : Type} {R : α → β → Prop} {list : List α} {other : List β} {a : α} {b : β}
    (h : List.Forall₂ R list other) (index : Nat) (hab : R a b) :
    List.Forall₂ R (list.set index a) (other.set index b) := by
  induction h generalizing index with
  | nil => exact .nil
  | cons hfirst hrest ih =>
    cases index with
    | zero => exact .cons hab hrest
    | succ index => exact .cons hfirst (ih index)

variable {iterators : List (Iterator K V)} {positions : List Nat}

/-- A use keeps every iterator at its position. -/
theorem use_eq_ok (h : List.Forall₂ (Reads linked entries) iterators positions)
    (view : Session.View) (first : Use) :
    ∃ after, use view iterators first = .ok ((read view entries positions first).1, after) ∧
      List.Forall₂ (Reads linked entries) after (read view entries positions first).2 := by
  cases first with
  | step index step =>
    have hindex := rel_getElem? h index
    rw [use, read]
    -- there is an iterator of this number exactly if there is a position
    generalize iterators[index]? = found at hindex ⊢
    generalize positions[index]? = position at hindex ⊢
    cases hindex with
    | none => exact ⟨iterators, rfl, h⟩
    | @some iterator position hreads =>
      obtain ⟨path, hat, hcome⟩ := hreads
      obtain ⟨after, place, hstep, hafter, hrest⟩ := hat.step_eq_ok view step
      rw [hcome, listStep_drop] at hstep hrest
      refine ⟨iterators.set index after, ?_, forall₂_set h index ⟨place, hafter, hrest⟩⟩
      simp only [hstep, bind, Except.bind]
      rfl
  -- the clone stands where the original stands, and the original stays there
  | clone index =>
    refine ⟨_, rfl, List.rel_append h ?_⟩
    have hindex := rel_getElem? h index
    generalize iterators[index]? = found at hindex ⊢
    generalize positions[index]? = position at hindex ⊢
    cases hindex with
    | none => exact .nil
    | some hreads => exact .cons hreads .nil

/-- Uses keep every iterator at its position. -/
theorem uses_eq_ok (h : List.Forall₂ (Reads linked entries) iterators positions)
    (view : Session.View) (sequence : List Use) :
    ∃ after, uses view sequence iterators = .ok ((reads view entries sequence positions).1, after) ∧
      List.Forall₂ (Reads linked entries) after (reads view entries sequence positions).2 := by
  induction sequence generalizing iterators positions with
  | nil => exact ⟨iterators, rfl, h⟩
  | cons first rest ih =>
    obtain ⟨between, hfirst, hbetween⟩ := use_eq_ok h view first
    obtain ⟨after, hrest, hafter⟩ := ih hbetween
    refine ⟨after, ?_, hafter⟩
    simp only [uses, hfirst, bind, Except.bind, hrest]
    rfl

end Iterator

namespace Engine

/-- Over every reachable tree, whatever the comparator has answered, an iterator and all clones that
are made of it on the way answer as positions in the list of the entries do, each of its own: what
they yield stands in that list, from left to right, each entry once. Whenever they are used,
the number of entries to come and its bounds are exact, the rest of the entries are still to
come, no more nodes are stored than the tree is high, and one that has once yielded nothing
never yields anything again. -/
theorem iterators_exact {linked : LinkedTree K V} (h : linked.Reachable) (view : Session.View)
    (sequence : List Iterator.Use) :
    ∃ shape iterator iterators,
      linked.toTree = .ok shape ∧
      Iterator.ofTree linked = .ok iterator ∧
      Iterator.uses view sequence [iterator] =
        .ok ((Iterator.reads view shape.toList sequence [0]).1, iterators) ∧
      List.Forall₂ (fun iterator position => iterator.Exact shape position) iterators
        (Iterator.reads view shape.toList sequence [0]).2 := by
  obtain ⟨layout, hlaid⟩ := h.exists_laidOut
  obtain ⟨iterator, hstart, hat⟩ := Iterator.ofTree_eq_ok hlaid
  -- the iterator begins with all entries to come
  have hcome : Iterator.toCome (layout.tree.spine .left []) =
      layout.tree.entries.toList.drop 0 := by
    rw [Iterator.toCome, Tree.after_spine_left, Path.after, List.append_nil, List.drop_zero,
      Tree.entries, Tree.toList_map]
  obtain ⟨iterators, huses, hreads⟩ :=
    Iterator.uses_eq_ok (.cons ⟨_, hat, hcome⟩ .nil) view sequence
  refine ⟨_, iterator, iterators, hlaid.toTree_eq_ok, hstart, huses, hreads.imp ?_⟩
  rintro iterator position ⟨path, hat, hcome⟩
  exact hat.exact hlaid.toTree_eq_ok hcome

/-- Iterators over the keys of the tree after a run with a comparator that changes its mind. -/
theorem iterators_exact_flipping :
    ∃ answers context shape iterator iterators,
      run (Operation.perform (Comparator.flipping 3 compare))
        [.insert 1 10 .overwrite, .insert 2 20 .reject, .insert 3 30 .overwrite,
          .insert 2 40 .reject, .pop .left, (.insert 5 50 .overwrite : Operation Unit Nat Nat)]
        (.ofArena (Arena.empty ⟨8, 24⟩ : Arena Nat Nat) 0) = .ok answers context ∧
      context.tree.toTree = .ok shape ∧
      Iterator.ofTree context.tree = .ok iterator ∧
      Iterator.uses .keys [.step 0 .next, .clone 0, .step 1 (.nth 1), .step 0 .length, .clone 1,
        .step 2 .next, .step 0 .next] [iterator] =
        .ok ((Iterator.reads .keys shape.toList [.step 0 .next, .clone 0, .step 1 (.nth 1),
          .step 0 .length, .clone 1, .step 2 .next, .step 0 .next] [0]).1, iterators) := by
  have hnew : Arena.withCapacity ⟨8, 24⟩ 0 = .ok (Arena.empty ⟨8, 24⟩ : Arena Nat Nat) := rfl
  obtain ⟨_, _, hrun, hreachable, -⟩ :=
    exists_reachable_run hnew (Comparator.flipping 3 compare) _ _
  obtain ⟨shape, iterator, iterators, hshape, hstart, huses, -⟩ :=
    iterators_exact hreachable .keys _
  exact ⟨_, _, shape, iterator, iterators, hrun, hshape, hstart, huses⟩

end Engine

end RedBlack
