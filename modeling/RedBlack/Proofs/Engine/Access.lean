import RedBlack.Engine.Access
import RedBlack.Proofs.Engine.Snapshot
import RedBlack.Proofs.Linked.Teardown
import RedBlack.Proofs.Tree.Search

/-!
# Access in Terms of Snapshots

Each operation of the engine on keys and on positions, as a function from the snapshot before
it to its answer and the snapshot after it (`Snapshot.get`, `Snapshot.insert` and so on), with
the rule that the operation follows this function. The descent for a key is `Tree.seek`.

The functions never look at the number of a slot except to hand it on, and none of them can
fail: whatever the comparator answers, an operation on a linked tree in order ends without a
fault and leaves a linked tree in order.
-/

namespace RedBlack

open RedBlack.Tree (Frame Path)

variable {σ K V α : Type}

/-- How the descent towards a key asks its way at a cell. -/
def Comparator.probe (comparator : Comparator σ K) (key : K) (cell : Cell K V) (memory : σ) :
    Ordering × σ :=
  comparator key cell.key memory

namespace Snapshot

variable (comparator : Comparator σ K) (key : K) (snapshot : Snapshot σ K V)

/-- The place where the descent for a key ends, and the subtree there. -/
def seek : (Tree (Cell K V) × Path (Cell K V)) × Snapshot σ K V :=
  let (place, memory) := snapshot.layout.tree.seek (comparator.probe key) [] snapshot.memory
  (place, { snapshot with memory })

/-- Whether a key is stored. -/
def contains : Bool × Snapshot σ K V :=
  match snapshot.seek comparator key with
  | ((.nil, _), after) => (false, after)
  | ((.node _ _ _ _, _), after) => (true, after)

/-- The value stored under a key. -/
def get : Except Error V × Snapshot σ K V :=
  match snapshot.seek comparator key with
  | ((.nil, _), after) => (.error .keyNotFound, after)
  | ((.node _ _ cell _, _), after) => (.ok cell.value, after)

/-- Change the value stored under a key. -/
def update (change : V → V) : Except Error V × Snapshot σ K V :=
  match snapshot.seek comparator key with
  | ((.nil, _), after) => (.error .keyNotFound, after)
  | ((.node color left cell right, path), after) =>
    (.ok (change cell.value), after.withTree
      ((Tree.node color left (cell.withValue (change cell.value)) right).under path))

/-- Store an entry in the empty place where the descent for its key has ended. -/
def insertAt (path : Path (Cell K V)) (value : V) :
    Except Error (Option V) × Snapshot σ K V :=
  -- a refused entry is let go of by the engine
  match snapshot.layout.insert path key value with
  | ((.ok (), events), layout) => (.ok none, { snapshot with layout }.report events)
  | ((.error _, events), layout) =>
    (.error .allocationFailure, ({ snapshot with layout }.report events).release [value])

/-- Store an entry. -/
def insert (value : V) (policy : DuplicatePolicy) : Except Error (Option V) × Snapshot σ K V :=
  match snapshot.seek comparator key with
  | ((.nil, path), after) => after.insertAt key path value
  | ((.node color left cell right, path), after) =>
    match policy with
    | .overwrite =>
      (.ok (some cell.value),
        after.withTree ((Tree.node color left (cell.withValue value) right).under path))
    | .reject => (.error .keyAlreadyExists, after.release [value])

/-- Take a node out of the tree. -/
def erase (color : Color) (left : Tree (Cell K V)) (cell : Cell K V) (right : Tree (Cell K V))
    (path : Path (Cell K V)) : (K × V) × Snapshot σ K V :=
  let ((entry, events), layout) := snapshot.layout.erase color left cell right path
  (entry, { snapshot with layout }.report events)

/-- Take the node of a frame around a tree out. -/
def eraseFrame (below : Tree (Cell K V)) (frame : Frame (Cell K V)) (path : Path (Cell K V)) :
    (K × V) × Snapshot σ K V :=
  snapshot.erase frame.color (frame.left below) frame.entry (frame.right below) path

/-- Remove the entry stored under a key. -/
def remove : Except Error (K × V) × Snapshot σ K V :=
  match snapshot.seek comparator key with
  | ((.nil, _), after) => (.error .keyNotFound, after)
  | ((.node color left cell right, path), after) =>
    let (entry, after) := after.erase color left cell right path
    (.ok entry, after)

/-- The outermost entry on one side. -/
def outermost (side : Side) : Except Error (K × V) :=
  match snapshot.layout.tree.spine side [] with
  | [] => .error .emptyContainer
  | frame :: _ => .ok frame.entry.entry

/-- Remove the outermost entry on one side. -/
def pop (side : Side) : Except Error (K × V) × Snapshot σ K V :=
  match snapshot.layout.tree.spine side [] with
  | [] => (.error .emptyContainer, snapshot)
  | frame :: path =>
    let (entry, after) := snapshot.eraseFrame .nil frame path
    (.ok entry, after)

/-- Release every entry. -/
def clear : Snapshot σ K V :=
  let ((values, events), layout) := snapshot.layout.clear
  ({ snapshot with layout }.report events).release values

variable {comparator key snapshot}

/-- The place where a descent ends is a place of the tree, which stays as it is. -/
theorem of_seek_eq {tree : Tree (Cell K V)} {path : Path (Cell K V)} {after : Snapshot σ K V}
    (h : snapshot.seek comparator key = ((tree, path), after)) :
    tree.under path = after.layout.tree ∧ after.layout = snapshot.layout := by
  have hunder := Tree.under_seek (comparator.probe key) snapshot.layout.tree [] snapshot.memory
  simp only [seek, Prod.mk.injEq] at h
  obtain ⟨hplace, rfl⟩ := h
  rw [hplace] at hunder
  exact ⟨hunder, rfl⟩

/-- Storing an entry in an empty place either fails, changes no entry and lets go of the value, or
adds a cell there. -/
theorem of_insertAt (snapshot : Snapshot σ K V) (key : K) (path : Path (Cell K V)) (value : V) :
    ((snapshot.insertAt key path value).1 = .error .allocationFailure ∧
        (snapshot.insertAt key path value).2.layout = snapshot.layout ∧
        (snapshot.insertAt key path value).2.released = snapshot.released ++ [value]) ∨
      ((snapshot.insertAt key path value).1 = .ok none ∧
        (snapshot.insertAt key path value).2.released = snapshot.released ∧
        ∃ slot, (snapshot.insertAt key path value).2.layout.tree.toList =
          Path.before path ++ ⟨slot, key, value⟩ :: Path.after path) := by
  simp only [insertAt, Layout.insert]
  cases hallot : Arena.allot snapshot.layout.tree.size snapshot.layout.vacated
      snapshot.layout.capacity snapshot.layout.room with
  | error cause => exact .inl ⟨rfl, rfl, rfl⟩
  | ok slot =>
    obtain ⟨id, vacated, capacity⟩ := slot
    refine .inr ⟨rfl, rfl, id, ?_⟩
    have hlist := Tree.toList_repairRed
      (Tree.node .red .nil (⟨id, key, value⟩ : Cell K V) .nil) path
    simp only [Tree.toList_under, Tree.toList, List.nil_append, List.append_assoc,
      List.cons_append] at hlist
    exact hlist

end Snapshot

namespace Engine

/-- Where the descent that ended in a place has landed. -/
def landing : Tree (Cell K V) × Path (Cell K V) → Landing
  | (.nil, path) => .gap (Path.owner path) (Path.side path)
  | (.node _ _ cell _, _) => .found cell.slot

namespace Performs

variable {comparator : Comparator σ K} {key : K} {before : Snapshot σ K V}
  {tree left right : Tree (Cell K V)} {color : Color} {cell : Cell K V} {path : Path (Cell K V)}

/-- The descent on links is the descent on the tree. -/
theorem descendWithin {steps : Nat} (path : Path (Cell K V))
    (htree : tree.under path = before.layout.tree) (hsteps : tree.size ≤ steps) :
    Performs
      (Engine.descendWithin comparator key steps (Path.owner path) (Path.side path) tree.link)
      before
      { before with memory := (tree.seek (comparator.probe key) path before.memory).2 }
      (landing (tree.seek (comparator.probe key) path before.memory).1) := by
  induction tree generalizing path before steps with
  | nil => cases steps <;> exact .pure _ _
  | node color left cell right ihl ihr =>
    rw [Tree.size] at hsteps
    obtain ⟨steps, rfl⟩ : ∃ k, steps = k + 1 := Nat.exists_eq_succ_of_ne_zero (by omega)
    refine .bind (.onTree (.node_root htree)) ?_
    rw [Tree.seek]
    rcases hask : comparator.probe key cell before.memory with ⟨answer, memory⟩
    refine .bind (.ask hask) ?_
    -- each turn puts the node on the path
    cases answer with
    | lt => exact ihl (⟨.left, color, cell, right⟩ :: path) htree (by omega)
    | eq => exact .pure _ _
    | gt => exact ihr (⟨.right, color, cell, left⟩ :: path) htree (by omega)

/-- The descent from the root. -/
theorem descend (comparator : Comparator σ K) (key : K) (before : Snapshot σ K V) :
    Performs (Engine.descend comparator key) before (before.seek comparator key).2
      (landing (before.seek comparator key).1) := by
  refine .budget fun steps hsteps => ?_
  refine .bind (.onTree (.getRoot before.layout)) ?_
  exact descendWithin [] (Tree.under_nil _) (Nat.le_of_lt hsteps)

/-- The node whose key is equal to a key. -/
theorem locate (comparator : Comparator σ K) (key : K) (before : Snapshot σ K V) :
    Performs (Engine.locate comparator key) before (before.seek comparator key).2
      (before.seek comparator key).1.1.link := by
  refine .bind (descend comparator key before) ?_
  rcases before.seek comparator key with ⟨⟨_ | ⟨color, left, cell, right⟩, path⟩, after⟩
  · exact .pure _ _
  · exact .pure _ _

theorem contains (comparator : Comparator σ K) (key : K) (before : Snapshot σ K V) :
    Performs (Engine.contains comparator key) before (before.contains comparator key).2
      (before.contains comparator key).1 := by
  refine .bind (locate comparator key before) ?_
  rw [Snapshot.contains]
  rcases before.seek comparator key with ⟨⟨_ | ⟨color, left, cell, right⟩, path⟩, after⟩
  · exact .pure _ _
  · exact .pure _ _

theorem get (comparator : Comparator σ K) (key : K) (before : Snapshot σ K V) :
    Performs (Engine.get comparator key) before (before.get comparator key).2
      (before.get comparator key).1 := by
  refine .bind (locate comparator key before) ?_
  rw [Snapshot.get]
  rcases hseek : before.seek comparator key with
    ⟨⟨_ | ⟨color, left, cell, right⟩, path⟩, after⟩
  · exact .pure _ _
  · obtain ⟨htree, -⟩ := Snapshot.of_seek_eq hseek
    exact .bind (.onTree (.node_root htree)) (.pure _ _)

theorem update (comparator : Comparator σ K) (key : K) (change : V → V)
    (before : Snapshot σ K V) :
    Performs (Engine.update comparator key change) before
      (before.update comparator key change).2 (before.update comparator key change).1 := by
  refine .bind (locate comparator key before) ?_
  rw [Snapshot.update]
  rcases hseek : before.seek comparator key with
    ⟨⟨_ | ⟨color, left, cell, right⟩, path⟩, after⟩
  · exact .pure _ _
  · obtain ⟨htree, -⟩ := Snapshot.of_seek_eq hseek
    have hframe : left.under (⟨.left, color, cell, right⟩ :: path) = after.layout.tree := htree
    -- the answer is read from the node after the change
    let changed := (Tree.node color left (cell.withValue (change cell.value)) right).under path
    have hchanged : (Tree.node color left (cell.withValue (change cell.value)) right).under path =
        (after.withTree changed).layout.tree := rfl
    have hread := LinkedTree.Reforms.node_root hchanged
    exact .bind (.onTree (.modifyValue hframe change)) (.bind (.onTree hread) (.pure _ _))

theorem insert (comparator : Comparator σ K) (key : K) (value : V) (policy : DuplicatePolicy)
    (before : Snapshot σ K V) :
    Performs (Engine.insert comparator key value policy) before
      (before.insert comparator key value policy).2
      (before.insert comparator key value policy).1 := by
  refine .bind (descend comparator key before) ?_
  rw [Snapshot.insert]
  rcases hseek : before.seek comparator key with
    ⟨⟨_ | ⟨color, left, cell, right⟩, path⟩, after⟩
  · obtain ⟨htree, -⟩ := Snapshot.of_seek_eq hseek
    refine .bind
      (.onTreeReporting (.insertAt htree (fun _ => Path.side_of_mem_head?) key value)) ?_
    simp only [Snapshot.insertAt]
    rcases after.layout.insert path key value with ⟨⟨_ | _, events⟩, layout⟩
    · exact .bind (.release [value] _) (.pure _ _)
    · exact .pure _ _
  · obtain ⟨htree, -⟩ := Snapshot.of_seek_eq hseek
    cases policy with
    | overwrite =>
      have hframe : left.under (⟨.left, color, cell, right⟩ :: path) = after.layout.tree := htree
      exact .bind (.onTree (.replaceValue hframe value)) (.pure _ _)
    | reject => exact .bind (.release [value] after) (.pure _ _)

theorem eraseNode (htree : (Tree.node color left cell right).under path = before.layout.tree) :
    Performs (Engine.eraseNode cell.slot) before (before.erase color left cell right path).2
      (before.erase color left cell right path).1 :=
  onTreeReporting (.erase htree)

theorem eraseFrame {below : Tree (Cell K V)} {frame : Frame (Cell K V)}
    (htree : below.under (frame :: path) = before.layout.tree) :
    Performs (Engine.eraseNode frame.entry.slot) before (before.eraseFrame below frame path).2
      (before.eraseFrame below frame path).1 := by
  rw [Tree.under_cons, Frame.close_eq_node] at htree
  exact eraseNode htree

theorem remove (comparator : Comparator σ K) (key : K) (before : Snapshot σ K V) :
    Performs (Engine.remove comparator key) before (before.remove comparator key).2
      (before.remove comparator key).1 := by
  refine .bind (locate comparator key before) ?_
  rw [Snapshot.remove]
  rcases hseek : before.seek comparator key with
    ⟨⟨_ | ⟨color, left, cell, right⟩, path⟩, after⟩
  · exact .pure _ _
  · obtain ⟨htree, -⟩ := Snapshot.of_seek_eq hseek
    exact .bind (eraseNode htree) (.pure _ _)

theorem outermost (side : Side) (before : Snapshot σ K V) :
    Performs (Engine.outermost side) before before (before.outermost side) := by
  refine .bind (.inspect fun tree h => h.outermostEntry?_eq_ok side) ?_
  rw [Snapshot.outermost]
  rcases before.layout.tree.spine side [] with _ | ⟨frame, path⟩
  · exact .pure _ _
  · exact .pure _ _

theorem pop (side : Side) (before : Snapshot σ K V) :
    Performs (Engine.pop side) before (before.pop side).2 (before.pop side).1 := by
  refine .bind (.inspect fun tree h => h.outermost?_eq_ok side) ?_
  rw [Snapshot.pop]
  rcases hspine : before.layout.tree.spine side [] with _ | ⟨frame, path⟩
  · exact .pure _ _
  -- the outermost node is the lowest frame, closed around nothing
  · have htree : Tree.nil.under (frame :: path) = before.layout.tree := by
      rw [← hspine, Tree.nil_under_spine, Tree.under_nil]
    exact .bind (eraseFrame htree) (.pure _ _)

theorem clear (before : Snapshot σ K V) : Performs Engine.clear before before.clear () :=
  .bind (.onTreeReporting (.clear before.layout)) (.release _ _)

end Performs

end Engine

end RedBlack
