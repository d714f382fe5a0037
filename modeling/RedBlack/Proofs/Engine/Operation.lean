import RedBlack.Proofs.Engine.Cursor
import RedBlack.Proofs.Engine.Iteration

/-!
# Operations and Runs

Everything that can be done with a container, as data: an `Operation` on the container, a
`Cursor.Move` of a cursor on it, and finite sequences of both (`Engine.run`,
`Engine.moves`). A map and a set share all of them; a set stores no values and refuses
duplicates.

Operations, moves and runs are followed on snapshots alone (`Performs.operation`,
`Performs.moves`, `Performs.run`).
-/

namespace RedBlack

open RedBlack.Tree (Frame Path)

variable {σ τ K V : Type}

/-! ## Cursors -/

/-- One use of a cursor. -/
inductive Cursor.Move (V : Type) where
  /-- Yield the next entry. -/
  | next
  /-- Yield the next entry and put another value in its place. -/
  | replace (value : V)
  /-- Whether there is an entry to yield. -/
  | hasNext
  /-- Remove the entry yielded last. -/
  | remove

/-- What a cursor answers. -/
inductive Cursor.Outcome (K V : Type) where
  /-- The next entry, if there is one, as it was before. -/
  | yielded (entry : Option (K × V))
  /-- A yes or a no. -/
  | flag (answer : Bool)
  /-- The removed entry, if there was one to remove. -/
  | removed (entry : Except Error (K × V))
deriving DecidableEq

/-- Use a cursor once. -/
def Cursor.move (comparator : Comparator σ K) (cursor : Cursor) :
    Cursor.Move V → EngineM σ K V (Cursor.Outcome K V × Cursor)
  | .next => do
    let (entry, cursor) ← cursor.next
    return (.yielded entry, cursor)
  | .replace value => do
    let (entry, cursor) ← cursor.nextReplacing value
    return (.yielded entry, cursor)
  | .hasNext => return (.flag cursor.hasNext, cursor)
  | .remove => do
    let (entry, cursor) ← cursor.remove comparator
    return (.removed entry, cursor)

/-- Use a cursor several times. Gives the answers and the cursor afterwards. -/
def Cursor.moves (comparator : Comparator σ K) :
    List (Cursor.Move V) → Cursor → EngineM σ K V (List (Cursor.Outcome K V) × Cursor)
  | [], cursor => return ([], cursor)
  | move :: moves, cursor => do
    let (outcome, cursor) ← cursor.move comparator move
    let (outcomes, cursor) ← Cursor.moves comparator moves cursor
    return (outcome :: outcomes, cursor)

/-! ## Operations -/

/-- An operation on a container; a filter may keep a state in `τ`. -/
inductive Operation (τ K V : Type) where
  /-- Store an entry. -/
  | insert (key : K) (value : V) (policy : DuplicatePolicy)
  /-- The value stored under a key. -/
  | get (key : K)
  /-- Change the value stored under a key. -/
  | update (key : K) (change : V → V)
  /-- Whether a key is stored. -/
  | contains (key : K)
  /-- Remove the entry stored under a key. -/
  | remove (key : K)
  /-- The outermost entry on one side. -/
  | outermost (side : Side)
  /-- Remove the outermost entry on one side. -/
  | pop (side : Side)
  /-- Release every entry. -/
  | clear
  /-- The number of entries. -/
  | length
  /-- Whether there are no entries. -/
  | isEmpty
  /-- The number of nodes on the longest path. -/
  | height
  /-- The number of slots that fit without growing. -/
  | capacity
  /-- All entries. -/
  | entries
  /-- Steps of an iterator. -/
  | iterate (view : Session.View) (steps : List Session.IteratorStep)
  /-- Uses of a cursor. -/
  | traverse (moves : List (Cursor.Move V))
  /-- Keep the entries for which `keep` answers `true`. -/
  | retain (keep : K → V → StateM τ (Bool × V)) (state : τ)
  /-- Go on with a copy of the container. -/
  | copy

/-- What an operation answers. -/
inductive Answer (τ K V : Type) where
  /-- There is nothing to say. -/
  | done
  /-- A yes or a no. -/
  | flag (answer : Bool)
  /-- A number. -/
  | number (answer : Nat)
  /-- The value that was replaced, if there was one. -/
  | stored (replaced : Except Error (Option V))
  /-- A value. -/
  | value (found : Except Error V)
  /-- An entry. -/
  | entry (found : Except Error (K × V))
  /-- A key. -/
  | key (found : Except Error K)
  /-- Whether it was done. -/
  | outcome (result : Except Error Unit)
  /-- A list of entries. -/
  | entries (entries : List (K × V))
  /-- What an iterator replied. -/
  | iterated (replies : List (Session.Reply K V))
  /-- What a cursor answered. -/
  | traversed (outcomes : List (Cursor.Outcome K V))
  /-- The state that a filter ended with. -/
  | retained (state : τ)

/-- The operation failed since storage could not grow. -/
def Answer.StorageRefused (answer : Answer τ K V) : Prop :=
  answer = .stored (.error .allocationFailure) ∨ answer = .outcome (.error .allocationFailure)

instance (answer : Answer τ K V) : Decidable answer.StorageRefused :=
  match answer with
  | .stored (.error error) =>
    decidable_of_iff (error = .allocationFailure) (by simp [Answer.StorageRefused])
  | .outcome (.error error) =>
    decidable_of_iff (error = .allocationFailure) (by simp [Answer.StorageRefused])
  | .stored (.ok _) | .outcome (.ok _) | .done | .flag _ | .number _ | .value _ | .entry _
  | .key _ | .entries _ | .iterated _ | .traversed _ | .retained _ =>
    isFalse fun h => h.elim nofun nofun

/-- Perform an operation. -/
def Operation.perform (comparator : Comparator σ K) :
    Operation τ K V → EngineM σ K V (Answer τ K V)
  | insert key value policy => return .stored (← Engine.insert comparator key value policy)
  | get key => return .value (← Engine.get comparator key)
  | update key change => return .value (← Engine.update comparator key change)
  | contains key => return .flag (← Engine.contains comparator key)
  | remove key => return .entry (← Engine.remove comparator key)
  | outermost side => return .entry (← Engine.outermost side)
  | pop side => return .entry (← Engine.pop side)
  | clear => do
    Engine.clear
    return .done
  | length => return .number (← Engine.inspect fun tree => .ok tree.size)
  | isEmpty => return .flag (← Engine.inspect fun tree => .ok (tree.size == 0))
  | height => return .number (← Engine.inspect fun tree => tree.height)
  | capacity => return .number (← Engine.inspect fun tree => .ok tree.arena.capacity)
  | entries => return .entries (← Engine.inspect fun tree => tree.entries)
  | iterate view steps =>
    return .iterated (← Engine.inspect fun tree => do
      Session.iteratorSteps view steps (← Iterator.ofTree tree))
  | traverse moves => do
    return .traversed (← Cursor.moves comparator moves (← Cursor.start)).1
  | retain keep state => return .retained (← Engine.retain comparator keep state)
  | copy => do
    Engine.onTree fun tree => .ok () tree.copy
    return .done

/-- Act several times, as `perform` says. Gives all answers. -/
def Engine.run {A B : Type} (perform : A → EngineM σ K V B) : List A → EngineM σ K V (List B)
  | [] => return []
  | action :: actions => do
    let answer ← perform action
    return answer :: (← Engine.run perform actions)

/-- Look at all entries after an action. -/
def Engine.observe {A B : Type} (perform : A → EngineM σ K V B) (action : A) :
    EngineM σ K V (B × List (K × V)) := do
  let answer ← perform action
  return (answer, ← Engine.inspect fun tree => tree.entries)

/-! ## Runs that can be computed -/

namespace Engine

variable {α : Type} {action : EngineM σ K V α} {context after : Context σ K V} {answer : α}
  {spec : α → Context σ K V → Prop}

/-- In a context, an action ends without a fault, and its answer and the context afterwards are as
said. -/
def Ends (action : EngineM σ K V α) (context : Context σ K V)
    (spec : α → Context σ K V → Prop) : Prop :=
  match action context with
  | .ok answer after => spec answer after
  | .error _ _ => False

theorem ends_iff :
    Ends action context spec ↔
      ∃ answer after, action context = .ok answer after ∧ spec answer after := by
  rw [Ends]
  rcases action context with ⟨answer, after⟩ | ⟨fault, after⟩
  · refine ⟨fun h => ⟨answer, after, rfl, h⟩, ?_⟩
    rintro ⟨_, _, ⟨⟩, h⟩
    exact h
  · refine iff_of_false id ?_
    rintro ⟨_, _, ⟨⟩, -⟩

/-- What an action has done is as said. -/
theorem holds_of_ok (hok : action context = .ok answer after)
    (spec : α → Context σ K V → Prop) (h : Ends action context spec) : spec answer after := by
  rw [Ends, hok] at h
  exact h

/-- What an action has done after an earlier one is as said. -/
theorem holds_after {β : Type} {first : EngineM σ K V β} {start : Context σ K V} {earlier : β}
    (hfirst : first start = .ok earlier context) (hok : action context = .ok answer after)
    (spec : Context σ K V → α → Context σ K V → Prop)
    (h : Ends first start fun _ context => Ends action context (spec context)) :
    spec context answer after :=
  holds_of_ok hok (spec context)
    (holds_of_ok hfirst (fun _ context => Ends action context (spec context)) h)

instance [∀ answer after, Decidable (spec answer after)] : Decidable (Ends action context spec) :=
  match h : action context with
  | .ok answer after => decidable_of_iff (spec answer after) (by rw [Ends, h])
  | .error _ _ => isFalse (by rw [Ends, h]; exact id)

end Engine

/-! ## On snapshots -/

/-- The layout of a copy, which has room for exactly the slots in use. -/
def Layout.copy (layout : Layout K V) : Layout K V :=
  { layout with capacity := layout.tree.size + layout.vacated.length }

/-- In a copy, no link is another one, and the free list neither. -/
theorem LinkedTree.LaidOut.copy {linked : LinkedTree K V} {layout : Layout K V}
    (h : linked.LaidOut layout) : linked.copy.LaidOut layout.copy := by
  have hsize : linked.arena.slots.size = layout.tree.size + layout.vacated.length := by
    rw [h.storage.size_eq, Tree.length_slots]
  show (linked.resized linked.arena.slots.size).LaidOut _
  rw [Layout.copy, ← hsize]
  exact h.resized linked.arena.slots.size

namespace Snapshot

variable (comparator : Comparator σ K) (snapshot : Snapshot σ K V)

/-- The entries in order. -/
def entries : List (K × V) :=
  snapshot.layout.tree.toList.map Cell.entry

/-- Use the cursor at a place once. -/
def move (place : Place K V) : Cursor.Move V → Cursor.Outcome K V × Place K V × Snapshot σ K V
  | .next => (.yielded place.next.1, place.next.2, snapshot)
  | .replace value =>
    let (entry, place, after) := snapshot.nextReplacing value place
    (.yielded entry, place, after)
  | .hasNext => (.flag (!(Path.after place.path).isEmpty), place, snapshot)
  | .remove =>
    let (entry, place, after) := snapshot.removeAt comparator place
    (.removed entry, place, after)

/-- Use the cursor at a place several times. -/
def moves (snapshot : Snapshot σ K V) (place : Place K V) :
    List (Cursor.Move V) → List (Cursor.Outcome K V) × Place K V × Snapshot σ K V
  | [] => ([], place, snapshot)
  | move :: moves =>
    let (outcome, place, after) := snapshot.move comparator place move
    let (outcomes, place, after) := after.moves place moves
    (outcome :: outcomes, place, after)

/-- Perform an operation. -/
def perform (operation : Operation τ K V) (snapshot : Snapshot σ K V) :
    Answer τ K V × Snapshot σ K V :=
  match operation with
  | .insert key value policy =>
    let (stored, after) := snapshot.insert comparator key value policy
    (.stored stored, after)
  | .get key =>
    let (found, after) := snapshot.get comparator key
    (.value found, after)
  | .update key change =>
    let (found, after) := snapshot.update comparator key change
    (.value found, after)
  | .contains key =>
    let (found, after) := snapshot.contains comparator key
    (.flag found, after)
  | .remove key =>
    let (found, after) := snapshot.remove comparator key
    (.entry found, after)
  | .outermost side => (.entry (snapshot.outermost side), snapshot)
  | .pop side =>
    let (found, after) := snapshot.pop side
    (.entry found, after)
  | .clear => (.done, snapshot.clear)
  | .length => (.number snapshot.layout.tree.size, snapshot)
  | .isEmpty => (.flag (snapshot.layout.tree.size == 0), snapshot)
  | .height => (.number snapshot.layout.tree.height, snapshot)
  | .capacity => (.number snapshot.layout.capacity, snapshot)
  | .entries => (.entries snapshot.entries, snapshot)
  | .iterate view steps => (.iterated (Session.listSteps view steps snapshot.entries), snapshot)
  | .traverse moves =>
    let (outcomes, _, after) := snapshot.moves comparator (.start snapshot.layout.tree) moves
    (.traversed outcomes, after)
  | .retain keep state =>
    let (state, after) :=
      snapshot.retain comparator keep (snapshot.layout.tree.spine .left []) state
    (.retained state, after)
  | .copy => (.done, { snapshot with layout := snapshot.layout.copy })

/-- Act several times, as `perform` says. -/
def run {A B : Type} (perform : A → Snapshot σ K V → B × Snapshot σ K V) :
    List A → Snapshot σ K V → List B × Snapshot σ K V
  | [], snapshot => ([], snapshot)
  | action :: actions, snapshot =>
    let (answer, after) := perform action snapshot
    let (answers, after) := run perform actions after
    (answer :: answers, after)

/-- Look at all entries after an action. -/
def observe {A B : Type} (perform : A → Snapshot σ K V → B × Snapshot σ K V) (action : A)
    (snapshot : Snapshot σ K V) : (B × List (K × V)) × Snapshot σ K V :=
  let (answer, after) := perform action snapshot
  ((answer, after.entries), after)

variable {comparator snapshot}

/-- Yielding an entry keeps the cursor at a place of the tree. -/
theorem nil_under_next (place : Place K V) :
    Tree.nil.under place.next.2.path = Tree.nil.under place.path := by
  rw [Place.next, Place.step]
  rcases hclimb : Path.climb .left place.path .nil with _ | ⟨below, frame, up⟩
  · rfl
  · obtain ⟨hside, hunder⟩ := Path.of_climb_eq_some hclimb
    exact (Path.nil_under_pass frame.entry hside).trans hunder.symm

/-- A use of a cursor keeps it at a place of the tree. -/
theorem nil_under_move {place : Place K V}
    (htree : Tree.nil.under place.path = snapshot.layout.tree) (move : Cursor.Move V) :
    Tree.nil.under (snapshot.move comparator place move).2.1.path =
      (snapshot.move comparator place move).2.2.layout.tree := by
  cases move with
  | next => exact (nil_under_next place).trans htree
  | replace value =>
    rw [Snapshot.move, nextReplacing]
    rcases Path.climb .left place.path .nil with _ | ⟨below, frame, up⟩
    · exact htree
    · rfl
  | hasNext => exact htree
  | remove =>
    rw [Snapshot.move, removeAt]
    rcases place.last? with _ | ⟨below, frame, up⟩
    · exact htree
    · rcases hcut : snapshot.cut comparator below frame up with ⟨⟨entry, path⟩, after⟩
      simp only [hcut]
      exact nil_under_of_cut hcut

theorem nil_under_moves (comparator : Comparator σ K) {place : Place K V}
    (htree : Tree.nil.under place.path = snapshot.layout.tree) (moves : List (Cursor.Move V)) :
    Tree.nil.under (snapshot.moves comparator place moves).2.1.path =
      (snapshot.moves comparator place moves).2.2.layout.tree := by
  induction moves generalizing snapshot place with
  | nil => exact htree
  | cons move moves ih => exact ih (nil_under_move htree move)

end Snapshot

namespace Engine.Performs

variable {before : Snapshot σ K V}

/-- There is an entry to yield exactly if one lies after the place. -/
theorem hasNext_cursor (place : Place K V) :
    place.cursor.hasNext = !(Path.after place.path).isEmpty := by
  rw [Cursor.hasNext, Place.cursor, Path.pending]
  rcases hclimb : Path.climb .left place.path .nil with _ | ⟨below, frame, up⟩
  · obtain ⟨hturns, hafter⟩ := Path.of_climb_left_eq_none hclimb
    rw [hturns, hafter]
    rfl
  · obtain ⟨hturns, -, hafter⟩ := Path.of_climb_left_eq_some hclimb
    rw [hturns, hafter]
    rfl

theorem move (comparator : Comparator σ K) {place : Place K V}
    (htree : Tree.nil.under place.path = before.layout.tree) (move : Cursor.Move V) :
    Performs (place.cursor.move comparator move) before
      (before.move comparator place move).2.2
      ((before.move comparator place move).1,
        (before.move comparator place move).2.1.cursor) := by
  cases move with
  | next => exact .bind (next htree) (.pure _ _)
  | replace value => exact .bind (nextReplacing htree value) (.pure _ _)
  | hasNext =>
    rw [Cursor.move, hasNext_cursor]
    exact .pure _ _
  | remove => exact .bind (removeAt comparator htree) (.pure _ _)

theorem moves (comparator : Comparator σ K) {place : Place K V}
    (htree : Tree.nil.under place.path = before.layout.tree) (moves : List (Cursor.Move V)) :
    Performs (Cursor.moves comparator moves place.cursor) before
      (before.moves comparator place moves).2.2
      ((before.moves comparator place moves).1,
        (before.moves comparator place moves).2.1.cursor) := by
  induction moves generalizing before place with
  | nil => exact .pure _ _
  | cons step steps ih =>
    refine .bind (move comparator htree step) (.bind (ih ?_) (.pure _ _))
    exact Snapshot.nil_under_move htree step

theorem copy (before : Snapshot σ K V) :
    Performs (Engine.onTree fun tree => .ok () tree.copy) before
      { before with layout := before.layout.copy } () :=
  .onTree fun linked h => ⟨linked.copy, rfl, h.copy⟩

theorem operation (comparator : Comparator σ K) (operation : Operation τ K V)
    (before : Snapshot σ K V) :
    Performs (operation.perform comparator) before (before.perform comparator operation).2
      (before.perform comparator operation).1 := by
  cases operation with
  | insert key value policy => exact .map (insert comparator key value policy before) _
  | get key => exact .map (get comparator key before) _
  | update key change => exact .map (update comparator key change before) _
  | contains key => exact .map (contains comparator key before) _
  | remove key => exact .map (remove comparator key before) _
  | outermost side => exact .map (outermost side before) _
  | pop side => exact .map (pop side before) _
  | clear => exact .bind (clear before) (.pure _ _)
  | length => exact .map (.inspect fun tree h => congrArg Except.ok h.size) _
  | isEmpty =>
    exact .map (.inspect fun tree h => congrArg (fun size => Except.ok (size == 0)) h.size) _
  | height => exact .map (.inspect fun tree h => h.height_eq_ok) _
  | capacity => exact .map (.inspect fun tree h => congrArg Except.ok h.capacity) _
  | entries => exact .map (.inspect fun tree h => LinkedTree.entries_eq_ok h) _
  | iterate view steps =>
    exact .map (.inspect fun tree h => Iterator.iteratorSteps_eq_ok h view steps) _
  | traverse steps =>
    have htree := Tree.nil_under_spine .left before.layout.tree []
    exact .bind (start before) (.bind (moves comparator htree steps) (.pure _ _))
  | retain keep state => exact .map (retain comparator keep state before) _
  | copy => exact .bind (copy before) (.pure _ _)

theorem run {A B : Type} {perform : A → EngineM σ K V B}
    {follow : A → Snapshot σ K V → B × Snapshot σ K V}
    (h : ∀ action before, Performs (perform action) before (follow action before).2
      (follow action before).1) (actions : List A) (before : Snapshot σ K V) :
    Performs (Engine.run perform actions) before (before.run follow actions).2
      (before.run follow actions).1 := by
  induction actions generalizing before with
  | nil => exact .pure _ _
  | cons action actions ih => exact .bind (h action before) (.bind (ih _) (.pure _ _))

/-- Looking at all entries after an action. -/
theorem observe {A B : Type} {perform : A → EngineM σ K V B}
    {follow : A → Snapshot σ K V → B × Snapshot σ K V}
    (h : ∀ action before, Performs (perform action) before (follow action before).2
      (follow action before).1) (action : A) (before : Snapshot σ K V) :
    Performs (Engine.observe perform action) before (before.observe follow action).2
      (before.observe follow action).1 :=
  .bind (h action before)
    (.bind (.inspect fun _ hlaid => LinkedTree.entries_eq_ok hlaid) (.pure _ _))

end Engine.Performs

/-- A new container is laid out without entries. -/
theorem LinkedTree.laidOut_ofArena {room : Room} {capacity : Nat} {arena : Arena K V}
    (h : Arena.withCapacity room capacity = .ok arena) :
    (LinkedTree.ofArena arena).LaidOut
      { tree := .nil, vacated := [], capacity := arena.capacity, room } := by
  -- whatever was reserved, no slot is in use
  obtain ⟨capacity, rfl⟩ := Arena.exists_of_withCapacity_eq_ok h
  have hstorage : (Arena.empty room : Arena K V).Holds [] [] := .empty room
  exact
    { shows := ⟨rfl, trivial⟩
      storage := ⟨hstorage.chain, hstorage.exists_node, hstorage.partition, hstorage.live⟩
      balanced := ⟨0, .nil⟩
      size := rfl
      capacity := rfl
      room := rfl }

end RedBlack
