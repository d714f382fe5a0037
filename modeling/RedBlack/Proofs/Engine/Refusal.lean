import RedBlack.Proofs.Engine.Container
import RedBlack.Proofs.Engine.Reachable
import RedBlack.Proofs.Linked.Determination

/-!
# Refused Operations

An operation is refused exactly when it has to be, and a refused operation leaves the linked tree
as it was: every slot with its links, colour, key and value, the root, the counts, the free list
and the capacity (`Engine.refused_when_due`). This holds for every comparator and on every
reachable tree, and also for cursors, which keep their own state as well.

When an error is due is said without the operations (`Operation.Due`): `LinkedTree.Descent`
follows the stored links down from a node and asks the comparator at each of them, `Arena.Full`
is about the slots, and `Cursor.armed` about what the cursor has answered so far. On the other
side, an error leaves the layout as it is, and there is only one linked tree with a given layout.
-/

namespace RedBlack

open RedBlack.Tree (Frame Path)

variable {σ τ K V α β : Type}

/-! ## When an error is due -/

/-- The descent for a key from a link, with what the comparator remembers: where it ends is the
node whose key is called equal, or no node. -/
inductive LinkedTree.Descent (comparator : Comparator σ K) (key : K) (linked : LinkedTree K V) :
    Link → σ → Link → Prop
  /-- There is no node. -/
  | gap (memory : σ) : Descent comparator key linked none memory none
  /-- The key is called equal to that of the node. -/
  | equal {id : SlotId} {node : Node K V} {memory after : σ} :
      linked.arena.node? id = some node → comparator key node.key memory = (.eq, after) →
        Descent comparator key linked (some id) memory (some id)
  /-- The key is called less. -/
  | less {id : SlotId} {node : Node K V} {memory after : σ} {last : Link} :
      linked.arena.node? id = some node → comparator key node.key memory = (.lt, after) →
        Descent comparator key linked node.left after last →
          Descent comparator key linked (some id) memory last
  /-- The key is called greater. -/
  | greater {id : SlotId} {node : Node K V} {memory after : σ} {last : Link} :
      linked.arena.node? id = some node → comparator key node.key memory = (.gt, after) →
        Descent comparator key linked node.right after last →
          Descent comparator key linked (some id) memory last

/-- The descent for a key meets no node whose key is called equal. -/
def Context.Misses (comparator : Comparator σ K) (key : K) (context : Context σ K V) : Prop :=
  context.tree.Descent comparator key context.tree.root context.memory none

/-- The descent for a key meets a node whose key is called equal. -/
def Context.Finds (comparator : Comparator σ K) (key : K) (context : Context σ K V) : Prop :=
  ∃ id, context.tree.Descent comparator key context.tree.root context.memory (some id)

/-- No slot is vacant, and either every slot number is given out or memory allows no more. -/
def Arena.Full (arena : Arena K V) : Prop :=
  arena.lastVacated = none ∧
    (maxSlots ≤ arena.slots.size ∨
      arena.capacity ≤ arena.slots.size ∧
        arena.room.most < grownCapacity arena.room arena.capacity (arena.slots.size + 1))

/-- The error that is due for an operation. -/
def Operation.Due (comparator : Comparator σ K) (context : Context σ K V) :
    Operation τ K V → Error → Prop
  | .get key, error | .update key _, error | .remove key, error =>
    error = .keyNotFound ∧ context.Misses comparator key
  | .insert key _ policy, error =>
    error = .keyAlreadyExists ∧ policy = .reject ∧ context.Finds comparator key ∨
      error = .allocationFailure ∧ context.Misses comparator key ∧ context.tree.arena.Full
  | .outermost _, error | .pop _, error => error = .emptyContainer ∧ context.tree.size = 0
  | _, _ => False

/-- The operation of the engine behind an operation on a map. -/
def OrderedMap.Operation.engine : OrderedMap.Operation τ K V → RedBlack.Operation τ K V
  | insert key value => .insert key value .overwrite
  | remove key | removeEntry key => .remove key
  | shared operation => operation

/-- The operation of the engine behind an operation on a set. -/
def OrderedSet.Operation.engine : OrderedSet.Operation τ K → RedBlack.Operation τ K Unit
  | insert key => .insert key () .reject
  | remove key | take key => .remove key
  | shared operation => operation

/-- Whether there is an entry to remove after one more answer of a cursor. -/
def Cursor.Outcome.arm (armed : Bool) : Cursor.Outcome K V → Bool
  | .yielded (some _) => true
  | .removed (.ok _) => false
  | _ => armed

/-- Whether a cursor has yielded an entry and not removed one since. -/
def Cursor.armed (outcomes : List (Cursor.Outcome K V)) : Bool :=
  outcomes.foldl Cursor.Outcome.arm false

/-! ## Errors in answers -/

/-- The error, if a result is one. -/
def Error.of? : Except Error α → Option Error
  | .error error => some error
  | .ok _ => none

@[simp]
theorem Error.of?_map (f : α → β) (result : Except Error α) :
    Error.of? (result.map f) = Error.of? result := by
  cases result <;> rfl

/-- The error that an answer gives, if it does. -/
def Answer.error? : Answer τ K V → Option Error
  | .stored result => Error.of? result
  | .value result => Error.of? result
  | .entry result => Error.of? result
  | .key result => Error.of? result
  | .outcome result => Error.of? result
  | _ => none

/-- An action gives an answer, in every case; the answer is an error exactly if one is due, and
then the linked tree stays as it is. -/
def Engine.RefusesWhen (action : EngineM σ K V (Answer τ K V)) (context : Context σ K V)
    (due : Error → Prop) : Prop :=
  ∃ answer after, action context = .ok answer after ∧
    (∀ error, answer.error? = some error ↔ due error) ∧
    (answer.error? ≠ none → after.tree = context.tree)

/-! ## Descents -/

namespace LinkedTree

variable {comparator : Comparator σ K} {key : K} {linked : LinkedTree K V}

/-- A descent has only one end. -/
theorem Descent.unique {link last other : Link} {memory : σ}
    (h : linked.Descent comparator key link memory last)
    (h' : linked.Descent comparator key link memory other) : last = other := by
  -- the node and the answer decide on which way both go on
  induction h with
  | gap =>
    cases h'
    rfl
  | equal hnode hanswer =>
    cases h' with
    | equal => rfl
    | less hnode' hanswer' | greater hnode' hanswer' =>
      cases hnode.symm.trans hnode'
      cases hanswer.symm.trans hanswer'
  | less hnode hanswer _ ih =>
    cases h' with
    | less hnode' hanswer' hrest =>
      cases hnode.symm.trans hnode'
      cases hanswer.symm.trans hanswer'
      exact ih hrest
    | equal hnode' hanswer' | greater hnode' hanswer' =>
      cases hnode.symm.trans hnode'
      cases hanswer.symm.trans hanswer'
  | greater hnode hanswer _ ih =>
    cases h' with
    | greater hnode' hanswer' hrest =>
      cases hnode.symm.trans hnode'
      cases hanswer.symm.trans hanswer'
      exact ih hrest
    | equal hnode' hanswer' | less hnode' hanswer' =>
      cases hnode.symm.trans hnode'
      cases hanswer.symm.trans hanswer'

/-- Along the links of a tree, the descent ends where the descent in the tree does. -/
theorem Descent.of_stores {parent : Link} {tree : Tree (Cell K V)}
    (h : linked.arena.Stores parent tree) (path : Path (Cell K V)) (memory : σ) :
    linked.Descent comparator key tree.link memory
      (tree.seek (comparator.probe key) path memory).1.1.link := by
  induction tree generalizing parent path memory with
  | nil => exact .gap memory
  | node color left cell right ihl ihr =>
    obtain ⟨hnode, hleft, hright⟩ := h
    -- the child to which the answer leads is the one that the stored node names
    rcases hanswer : comparator key cell.key memory with ⟨_ | _ | _, after⟩
    all_goals simp only [Tree.seek, Comparator.probe, hanswer]
    · exact .less hnode hanswer (ihl hleft _ after)
    · exact .equal hnode hanswer
    · exact .greater hnode hanswer (ihr hright _ after)

end LinkedTree

namespace Context

variable {context : Context σ K V} {layout : Layout K V} (h : context.tree.LaidOut layout)
  (comparator : Comparator σ K) (key : K)

include h

/-- The stored links lead a key to where the descent on the layout leads it. -/
theorem descent_root : context.tree.Descent comparator key context.tree.root context.memory
    ((context.snapshot layout).seek comparator key).1.1.link := by
  rw [h.shows.1]
  exact .of_stores h.shows.2 [] context.memory

theorem misses_iff :
    context.Misses comparator key ↔
      ((context.snapshot layout).seek comparator key).1.1.link = none := by
  have hdescent := descent_root h comparator key
  constructor
  · intro hmisses
    exact hdescent.unique hmisses
  · intro hnone
    rw [hnone] at hdescent
    exact hdescent

theorem finds_iff :
    context.Finds comparator key ↔
      ((context.snapshot layout).seek comparator key).1.1.link ≠ none := by
  have hdescent := descent_root h comparator key
  constructor
  · rintro ⟨id, hfinds⟩ hnone
    cases hnone.symm.trans (hdescent.unique hfinds)
  · intro hsome
    obtain ⟨id, hid⟩ := Option.ne_none_iff_exists'.1 hsome
    rw [hid] at hdescent
    exact ⟨id, hdescent⟩

end Context

/-- No slot can be given out exactly if none is allotted. -/
theorem Arena.Holds.full_iff {arena : Arena K V} {occupied vacated : List SlotId}
    (h : arena.Holds occupied vacated) :
    arena.Full ↔
      ∃ cause, allot occupied.length vacated arena.capacity arena.room = .error cause := by
  rw [Full]
  cases vacated with
  | cons id rest =>
    obtain ⟨hlast, -⟩ := h.chain
    rw [hlast]
    refine iff_of_false ?_ ?_
    · rintro ⟨hnone, -⟩
      cases hnone
    · rintro ⟨cause, hcause⟩
      cases hcause
  | nil =>
    have hlast : arena.lastVacated = none := h.chain
    have hsize : arena.slots.size = occupied.length := h.size_eq
    rw [hlast, hsize, allot, fit]
    -- slot numbers are looked at first, then the capacity, then memory
    by_cases hmax : maxSlots < occupied.length + 1
    · rw [if_pos hmax]
      exact iff_of_true ⟨rfl, .inl (Nat.le_of_lt_succ hmax)⟩ ⟨_, rfl⟩
    by_cases hfits : occupied.length + 1 ≤ arena.capacity
    · rw [if_neg hmax, if_pos hfits]
      refine iff_of_false (by omega) ?_
      rintro ⟨cause, hcause⟩
      cases hcause
    by_cases hroom : arena.room.most < grownCapacity arena.room arena.capacity (occupied.length + 1)
    · rw [if_neg hmax, if_neg hfits, if_pos hroom]
      exact iff_of_true ⟨rfl, .inr ⟨by omega, hroom⟩⟩ ⟨_, rfl⟩
    · rw [if_neg hmax, if_neg hfits, if_neg hroom]
      refine iff_of_false (by omega) ?_
      rintro ⟨cause, hcause⟩
      cases hcause

/-! ## On snapshots -/

namespace Snapshot

/-- The error of a result is the one that is due, and changes nothing. -/
structure Refuses (before : Snapshot σ K V) (due : Error → Prop) (error? : Option Error)
    (after : Snapshot σ K V) : Prop where
  /-- The error that is due is given. -/
  error : ∀ error, error? = some error ↔ due error
  /-- After an error, the layout is as it was. -/
  layout : error? ≠ none → after.layout = before.layout

namespace Refuses

variable {before after : Snapshot σ K V} {due : Error → Prop}

theorem of_error {cause : Error} (hdue : ∀ error, due error ↔ error = cause)
    (hlayout : after.layout = before.layout) : Refuses before due (some cause) after where
  error := by
    intro error
    rw [hdue, Option.some.injEq, eq_comm]
  layout _ := hlayout

theorem of_ok (hdue : ∀ error, ¬due error) : Refuses before due none after where
  error := fun error => iff_of_false nofun (hdue error)
  layout := fun hsome => absurd rfl hsome

end Refuses

section

variable {context : Context σ K V} {layout : Layout K V} (h : context.tree.LaidOut layout)
  {comparator : Comparator σ K} {key : K} {path : Path (Cell K V)} {after : Snapshot σ K V}

include h

/-- Where the descent ends in an empty place, the key is not found. -/
theorem refuses_of_seek_nil
    (hseek : (context.snapshot layout).seek comparator key = ((.nil, path), after)) :
    Refuses (context.snapshot layout)
      (fun error => error = .keyNotFound ∧ context.Misses comparator key)
      (some .keyNotFound) after := by
  have hmisses := Context.misses_iff h comparator key
  rw [hseek] at hmisses
  exact .of_error (fun error => and_iff_left (hmisses.2 rfl)) (of_seek_eq hseek).2

/-- Where it ends at a node, the key is found. -/
theorem refuses_of_seek_node {color : Color} {left right : Tree (Cell K V)} {cell : Cell K V}
    {last : Snapshot σ K V}
    (hseek : (context.snapshot layout).seek comparator key =
      ((.node color left cell right, path), after)) :
    Refuses (context.snapshot layout)
      (fun error => error = .keyNotFound ∧ context.Misses comparator key) none last := by
  have hmisses := Context.misses_iff h comparator key
  rw [hseek] at hmisses
  apply Refuses.of_ok
  rintro error ⟨-, hmiss⟩
  cases hmisses.1 hmiss

theorem refuses_get (comparator : Comparator σ K) (key : K) :
    Refuses (context.snapshot layout)
      (Operation.Due comparator context (.get key : Operation τ K V))
      (Error.of? ((context.snapshot layout).get comparator key).1)
      ((context.snapshot layout).get comparator key).2 := by
  rw [get]
  rcases hseek : (context.snapshot layout).seek comparator key with
    ⟨⟨_ | ⟨color, left, cell, right⟩, path⟩, after⟩
  · exact refuses_of_seek_nil h hseek
  · exact refuses_of_seek_node h hseek

theorem refuses_update (comparator : Comparator σ K) (key : K) (change : V → V) :
    Refuses (context.snapshot layout)
      (Operation.Due comparator context (.update key change : Operation τ K V))
      (Error.of? ((context.snapshot layout).update comparator key change).1)
      ((context.snapshot layout).update comparator key change).2 := by
  rw [update]
  rcases hseek : (context.snapshot layout).seek comparator key with
    ⟨⟨_ | ⟨color, left, cell, right⟩, path⟩, after⟩
  · exact refuses_of_seek_nil h hseek
  · exact refuses_of_seek_node h hseek

theorem refuses_remove (comparator : Comparator σ K) (key : K) :
    Refuses (context.snapshot layout)
      (Operation.Due comparator context (.remove key : Operation τ K V))
      (Error.of? ((context.snapshot layout).remove comparator key).1)
      ((context.snapshot layout).remove comparator key).2 := by
  rw [remove]
  rcases hseek : (context.snapshot layout).seek comparator key with
    ⟨⟨_ | ⟨color, left, cell, right⟩, path⟩, after⟩
  · exact refuses_of_seek_nil h hseek
  · exact refuses_of_seek_node h hseek

theorem refuses_insert (comparator : Comparator σ K) (key : K) (value : V)
    (policy : DuplicatePolicy) :
    Refuses (context.snapshot layout)
      (Operation.Due comparator context (.insert key value policy : Operation τ K V))
      (Error.of? ((context.snapshot layout).insert comparator key value policy).1)
      ((context.snapshot layout).insert comparator key value policy).2 := by
  have hmisses := Context.misses_iff h comparator key
  have hfinds := Context.finds_iff h comparator key
  rw [insert]
  rcases hseek : (context.snapshot layout).seek comparator key with
    ⟨⟨_ | ⟨color, left, cell, right⟩, path⟩, after⟩
  all_goals
    rw [hseek] at hmisses hfinds
    obtain ⟨-, hlayout⟩ := of_seek_eq hseek
  -- in an empty place, only storage can refuse the entry
  · have hmiss : context.Misses comparator key := hmisses.2 rfl
    have hnone : ¬context.Finds comparator key := fun hfound => hfinds.1 hfound rfl
    have hfull := h.storage.full_iff
    rw [Tree.length_slots, h.capacity, h.room] at hfull
    have hsame : after.layout = layout := hlayout
    simp only [insertAt, Layout.insert, hsame]
    cases hallot : Arena.allot layout.tree.size layout.vacated layout.capacity layout.room with
    | error cause =>
      refine .of_error (fun error => ?_) rfl
      constructor
      · rintro (⟨-, -, hfound⟩ | ⟨rfl, -⟩)
        · exact absurd hfound hnone
        · rfl
      · rintro rfl
        exact .inr ⟨rfl, hmiss, hfull.2 ⟨cause, hallot⟩⟩
    | ok slot =>
      apply Refuses.of_ok
      rintro error (⟨-, -, hfound⟩ | ⟨-, -, hshort⟩)
      · exact hnone hfound
      · obtain ⟨cause, hcause⟩ := hfull.1 hshort
        cases hcause.symm.trans hallot
  -- at a node, only the policy can
  · have hfound : context.Finds comparator key := hfinds.2 (Option.some_ne_none cell.slot)
    have hnone : ¬context.Misses comparator key := by
      intro hmiss
      cases hmisses.1 hmiss
    cases policy with
    | overwrite =>
      apply Refuses.of_ok
      rintro error (⟨-, hpolicy, -⟩ | ⟨-, hmiss, -⟩)
      · cases hpolicy
      · exact hnone hmiss
    | reject =>
      refine .of_error (fun error => ?_) hlayout
      constructor
      · rintro (⟨rfl, -⟩ | ⟨-, hmiss, -⟩)
        · rfl
        · exact absurd hmiss hnone
      · rintro rfl
        exact .inl ⟨rfl, rfl, hfound⟩

/-- Without a way to the outermost entry, there is none. -/
theorem refuses_of_spine_nil {side : Side} (hspine : layout.tree.spine side [] = []) :
    Refuses (context.snapshot layout)
      (fun error => error = .emptyContainer ∧ context.tree.size = 0) (some .emptyContainer)
      (context.snapshot layout) := by
  have hsize : context.tree.size = 0 :=
    h.size.trans (congrArg Tree.size (Tree.eq_nil_of_spine_eq_nil hspine))
  exact .of_error (fun error => and_iff_left hsize) rfl

theorem refuses_of_spine_cons {side : Side} {frame : Frame (Cell K V)} {last : Snapshot σ K V}
    (hspine : layout.tree.spine side [] = frame :: path) :
    Refuses (context.snapshot layout)
      (fun error => error = .emptyContainer ∧ context.tree.size = 0) none last := by
  apply Refuses.of_ok
  rintro error ⟨-, hsize⟩
  -- what is counted is the size of the tree, and an empty one has no spine
  rw [h.size] at hsize
  cases htree : layout.tree with
  | nil =>
    rw [htree] at hspine
    cases hspine
  | node =>
    rw [htree] at hsize
    cases hsize

theorem refuses_outermost (side : Side) :
    Refuses (context.snapshot layout)
      (Operation.Due comparator context (.outermost side : Operation τ K V))
      (Error.of? ((context.snapshot layout).outermost side)) (context.snapshot layout) := by
  rw [outermost]
  rcases hspine : (context.snapshot layout).layout.tree.spine side [] with _ | ⟨frame, path⟩
  · exact refuses_of_spine_nil h hspine
  · exact refuses_of_spine_cons h hspine

theorem refuses_pop (side : Side) :
    Refuses (context.snapshot layout)
      (Operation.Due comparator context (.pop side : Operation τ K V))
      (Error.of? ((context.snapshot layout).pop side).1)
      ((context.snapshot layout).pop side).2 := by
  rw [pop]
  rcases hspine : (context.snapshot layout).layout.tree.spine side [] with _ | ⟨frame, path⟩
  · exact refuses_of_spine_nil h hspine
  · exact refuses_of_spine_cons h hspine

/-- Every operation is refused exactly when it has to be. -/
theorem refuses_perform (comparator : Comparator σ K) (operation : Operation τ K V) :
    Refuses (context.snapshot layout) (operation.Due comparator context)
      ((context.snapshot layout).perform comparator operation).1.error?
      ((context.snapshot layout).perform comparator operation).2 := by
  cases operation with
  | insert key value policy => exact refuses_insert h comparator key value policy
  | get key => exact refuses_get h comparator key
  | update key change => exact refuses_update h comparator key change
  | remove key => exact refuses_remove h comparator key
  | outermost side => exact refuses_outermost h side
  | pop side => exact refuses_pop h side
  | _ => exact .of_ok fun _ hdue => hdue

theorem refuses_map (comparator : Comparator σ K) (operation : OrderedMap.Operation τ K V) :
    Refuses (context.snapshot layout) (operation.engine.Due comparator context)
      (operation.follow comparator (context.snapshot layout)).1.error?
      (operation.follow comparator (context.snapshot layout)).2 := by
  have hrefuses := refuses_perform h comparator operation.engine
  cases operation with
  -- leaving the key out of the answer leaves the error in
  | remove key =>
    simp only [OrderedMap.Operation.follow, Answer.error?, Error.of?_map]
    exact hrefuses
  | _ => exact hrefuses

end

theorem refuses_set {context : Context σ K Unit} {layout : Layout K Unit}
    (h : context.tree.LaidOut layout) (comparator : Comparator σ K)
    (operation : OrderedSet.Operation τ K) :
    Refuses (context.snapshot layout) (operation.engine.Due comparator context)
      (operation.follow comparator (context.snapshot layout)).1.error?
      (operation.follow comparator (context.snapshot layout)).2 := by
  have hrefuses := refuses_perform h comparator operation.engine
  cases operation with
  | shared operation => exact hrefuses
  | _ =>
    simp only [OrderedSet.Operation.follow, Answer.error?, Error.of?_map]
    exact hrefuses

/-! ### Cursors -/

/-- A cursor is armed exactly if it can remove. -/
theorem isSome_last?_move (comparator : Comparator σ K) (snapshot : Snapshot σ K V)
    (place : Place K V) (move : Cursor.Move V) :
    (snapshot.move comparator place move).2.1.last?.isSome =
      Cursor.Outcome.arm place.last?.isSome (snapshot.move comparator place move).1 := by
  cases move with
  | next =>
    rw [Snapshot.move, Place.next, Place.step]
    rcases Path.climb .left place.path .nil with _ | ⟨below, frame, up⟩
    · rfl
    -- what was passed lies right before the place
    · exact congrArg Option.isSome (Path.climb_right_pass ..)
  | replace value =>
    rw [Snapshot.move, nextReplacing]
    rcases Path.climb .left place.path .nil with _ | ⟨below, frame, up⟩
    · rfl
    · exact congrArg Option.isSome (Path.climb_right_pass ..)
  | hasNext => rfl
  | remove =>
    rw [Snapshot.move, removeAt]
    rcases hlast : place.last? with _ | ⟨below, frame, up⟩
    · exact congrArg Option.isSome hlast
    · rfl

theorem isSome_last?_moves (comparator : Comparator σ K) (snapshot : Snapshot σ K V)
    (place : Place K V) (moves : List (Cursor.Move V)) :
    (snapshot.moves comparator place moves).2.1.last?.isSome =
      (snapshot.moves comparator place moves).1.foldl Cursor.Outcome.arm place.last?.isSome := by
  induction moves generalizing snapshot place with
  | nil => rfl
  | cons move moves ih =>
    have hfirst := isSome_last?_move comparator snapshot place move
    simp only [Snapshot.moves, List.foldl_cons, ← hfirst]
    exact ih _ _

end Snapshot

namespace Engine

theorem RefusesWhen.of_performs {action : EngineM σ K V (Answer τ K V)} {context : Context σ K V}
    {layout : Layout K V} {after : Snapshot σ K V} {answer : Answer τ K V} {due : Error → Prop}
    (hlaid : context.tree.LaidOut layout)
    (h : Performs action (context.snapshot layout) after answer)
    (hrefuses : (context.snapshot layout).Refuses due answer.error? after) :
    RefusesWhen action context due := by
  obtain ⟨tree, hok, hafter⟩ := h.of_context hlaid
  refine ⟨answer, _, hok, hrefuses.error, ?_⟩
  intro herror
  -- the layout is the one before, and no other linked tree has it
  rw [hrefuses.layout herror] at hafter
  exact hafter.unique hlaid

/-- A cursor refuses to remove exactly if it is not armed, and then it stays as it is, and so does
the linked tree. -/
theorem cursor_refuses {context : Context σ K V} {layout : Layout K V}
    (hlaid : context.tree.LaidOut layout) (comparator : Comparator σ K)
    (moves : List (Cursor.Move V)) :
    ∃ outcomes cursor between answer after,
      (do Cursor.moves comparator moves (← Cursor.start)) context = .ok (outcomes, cursor) between ∧
      cursor.remove comparator between = .ok answer after ∧
      (∀ error, answer.1 = .error error ↔
        error = .invalidCursorState ∧ Cursor.armed outcomes = false) ∧
      (∀ error, answer.1 = .error error → after.tree = between.tree ∧ answer.2 = cursor) := by
  let start : Snapshot σ K V := context.snapshot layout
  have htree : Tree.nil.under (Place.start layout.tree).path = start.layout.tree :=
    Tree.nil_under_spine .left layout.tree []
  have hmoves := (Performs.start start).bind (Performs.moves comparator htree moves)
  obtain ⟨tree, hrun, hbetween⟩ := hmoves.of_context hlaid
  have harmed := Snapshot.isSome_last?_moves comparator start (.start layout.tree) moves
  have hplace := Snapshot.nil_under_moves comparator htree moves
  rcases hsnapshot : start.moves comparator (.start layout.tree) moves with
    ⟨outcomes, place, before⟩
  simp only [hsnapshot] at hrun hbetween harmed hplace
  -- a new cursor has nothing to remove
  have hlast? : place.last?.isSome = Cursor.armed outcomes := harmed
  obtain ⟨new, hremove, hnew⟩ := Performs.removeAt comparator hplace tree hbetween
  refine ⟨outcomes, place.cursor, _, _, _, hrun, hremove, ?_⟩
  rw [Snapshot.removeAt] at hnew ⊢
  rcases hlast : place.last? with _ | ⟨below, frame, up⟩
  · rw [hlast] at hlast? hnew
    refine ⟨fun error => ?_, fun _ _ => ⟨hnew.unique hbetween, rfl⟩⟩
    constructor
    · rintro ⟨⟩
      exact ⟨rfl, hlast?.symm⟩
    · rintro ⟨rfl, -⟩
      rfl
  · rw [hlast] at hlast?
    constructor
    · intro error
      refine iff_of_false ?_ ?_
      · intro herror
        cases herror
      · rintro ⟨-, hnever⟩
        cases hlast?.trans hnever
    · intro error herror
      cases herror

/-- On every reachable tree and whatever the comparator answers, every operation on a map or a
set gives an answer, which is an error exactly if one is due, and an error leaves every slot,
link, colour, key and value, the root, the counts, the free list and the capacity as they were.
So does a cursor that has nothing to remove, and it stays as it is itself. -/
theorem refused_when_due {map : Context σ K V} {set : Context σ K Unit}
    (hmap : map.tree.Reachable) (hset : set.tree.Reachable) (comparator : Comparator σ K) :
    (∀ operation : Operation τ K V,
      RefusesWhen (operation.perform comparator) map (operation.Due comparator map)) ∧
    (∀ operation : OrderedMap.Operation τ K V,
      RefusesWhen (operation.perform comparator) map (operation.engine.Due comparator map)) ∧
    (∀ operation : OrderedSet.Operation τ K,
      RefusesWhen (operation.perform comparator) set (operation.engine.Due comparator set)) ∧
    (∀ moves : List (Cursor.Move V), ∃ outcomes cursor between answer after,
      (do Cursor.moves comparator moves (← Cursor.start)) map = .ok (outcomes, cursor) between ∧
      cursor.remove comparator between = .ok answer after ∧
      (∀ error, answer.1 = .error error ↔
        error = .invalidCursorState ∧ Cursor.armed outcomes = false) ∧
      (∀ error, answer.1 = .error error → after.tree = between.tree ∧ answer.2 = cursor)) := by
  obtain ⟨layout, hlaid⟩ := hmap.exists_laidOut
  obtain ⟨layout', hlaid'⟩ := hset.exists_laidOut
  refine ⟨?_, ?_, ?_, cursor_refuses hlaid comparator⟩
  · intro operation
    exact .of_performs hlaid (Performs.operation comparator operation _)
      (Snapshot.refuses_perform hlaid comparator operation)
  · intro operation
    exact .of_performs hlaid (Performs.mapOperation comparator operation _)
      (Snapshot.refuses_map hlaid comparator operation)
  · intro operation
    exact .of_performs hlaid' (Performs.setOperation comparator operation _)
      (Snapshot.refuses_set hlaid' comparator operation)

/-- Refusals of a map and a set for which memory allows no more, with a comparator that changes
its mind. -/
theorem refused_when_due_flipping :
    ∃ (map : Context Nat Nat Nat) (set : Context Nat Nat Unit),
      map.tree.Reachable ∧ set.tree.Reachable ∧
      RefusesWhen ((.insert 9 90 .reject : Operation Unit Nat Nat).perform
          (Comparator.flipping 9 compare)) map
        ((.insert 9 90 .reject : Operation Unit Nat Nat).Due (Comparator.flipping 9 compare) map) ∧
      RefusesWhen ((.removeEntry 7 : OrderedMap.Operation Unit Nat Nat).perform
          (Comparator.flipping 9 compare)) map
        ((.remove 7 : Operation Unit Nat Nat).Due (Comparator.flipping 9 compare) map) ∧
      RefusesWhen ((.insert 2 : OrderedSet.Operation Unit Nat).perform
          (Comparator.flipping 9 compare)) set
        ((.insert 2 () .reject : Operation Unit Nat Unit).Due (Comparator.flipping 9 compare)
          set) ∧
      ∃ outcomes cursor between answer after,
        (do Cursor.moves (Comparator.flipping 9 compare) [.next, .remove] (← Cursor.start)) map =
          .ok (outcomes, cursor) between ∧
        cursor.remove (Comparator.flipping 9 compare) between = .ok answer after ∧
        (∀ error, answer.1 = .error error ↔
          error = .invalidCursorState ∧ Cursor.armed outcomes = false) ∧
        (∀ error, answer.1 = .error error → after.tree = between.tree ∧ answer.2 = cursor) := by
  let comparator : Comparator Nat Nat := Comparator.flipping 9 compare
  have hnew : Arena.withCapacity ⟨4, 24⟩ 0 = .ok (Arena.empty ⟨4, 24⟩ : Arena Nat Nat) := rfl
  have hnew' : Arena.withCapacity ⟨4, 24⟩ 0 = .ok (Arena.empty ⟨4, 24⟩ : Arena Nat Unit) := rfl
  obtain ⟨_, map, -, hmap, -⟩ :=
    exists_reachable_run hnew comparator 0
      [.insert 1 10 .overwrite, .insert 2 20 .overwrite, .insert 3 30 .overwrite,
        (.insert 4 40 .overwrite : Operation Unit Nat Nat)]
  obtain ⟨_, set, -, hset, -⟩ :=
    exists_reachable_run hnew' comparator 0
      [.insert 1 () .reject, .insert 2 () .reject, .remove 1,
        (.insert 3 () .reject : Operation Unit Nat Unit)]
  obtain ⟨hoperation, hmapped, hadded, hcursor⟩ := refused_when_due hmap hset comparator
  exact ⟨map, set, hmap, hset, hoperation _, hmapped (.removeEntry 7), hadded (.insert 2),
    hcursor [.next, .remove]⟩

end Engine

end RedBlack
