import RedBlack.Engine.Cursor
import RedBlack.Proofs.Engine.Access
import RedBlack.Proofs.Linked.Iterator

/-!
# Cursors in Terms of Snapshots

A cursor stands at an empty place of the tree (`Place`): its pending nodes are those at which
the path to the place turns left, and what it may remove is the last entry before the place.
Each step of a cursor is a function on places and snapshots, with the rule that the step
follows this function. `Place.step` moves past one entry; `Snapshot.cut` takes the entry before
the place out, and the place afterwards is where the comparator sends the key of that entry.

`Snapshot.retain` is the filter as a recursion on places. A removal leaves a tree with one node
less, and a step without a removal leaves less of the same tree to visit, so the filter ends
whatever the comparator answers, and the square of the budget is enough steps for it
(`Performs.retain`).
-/

namespace RedBlack

open RedBlack.Tree (Frame Path)

variable {σ τ K V : Type}

/-- Where a cursor stands. -/
structure Place (K V : Type) where
  /-- The way to an empty place of the tree. -/
  path : Path (Cell K V)
  /-- Whether the last entry before the place may be removed. -/
  removable : Bool

namespace Place

variable (place : Place K V)

/-- The node that may be removed: the tree below it towards the place, its frame, and the
path above. -/
def last? : Option (Tree (Cell K V) × Frame (Cell K V) × Path (Cell K V)) :=
  if place.removable then Path.climb .right place.path .nil else none

/-- What may be removed lies right before the place. -/
theorem climb_of_last? {place : Place K V} {below : Tree (Cell K V)} {frame : Frame (Cell K V)}
    {up : Path (Cell K V)} (h : place.last? = some (below, frame, up)) :
    Path.climb .right place.path .nil = some (below, frame, up) := by
  rw [last?] at h
  split at h
  · exact h
  · cases h

/-- The cursor that stands at a place. -/
def cursor : Cursor :=
  { pending := Path.pending place.path
    yielded := place.last?.map fun (_, frame, _) => frame.entry.slot }

/-- The cursor has yielded what may be removed. -/
theorem yielded_cursor :
    place.cursor.yielded = place.last?.map fun (_, frame, _) => frame.entry.slot := rfl

/-- The place before all entries. -/
def start (tree : Tree (Cell K V)) : Place K V :=
  { path := tree.spine .left [], removable := false }

theorem nil_under_start (tree : Tree (Cell K V)) : Tree.nil.under (start tree).path = tree :=
  Tree.nil_under_spine .left tree []

theorem before_start (tree : Tree (Cell K V)) : Path.before (start tree).path = [] :=
  Tree.before_spine_left tree []

theorem after_start (tree : Tree (Cell K V)) : Path.after (start tree).path = tree.toList :=
  (Tree.after_spine_left tree []).trans (List.append_nil _)

/-- The place right after the next entry, if there is one, with that entry. -/
def step : Option (Cell K V) × Place K V :=
  match Path.climb .left place.path .nil with
  | none => (none, place)
  | some (below, frame, up) =>
    (some frame.entry, ⟨Path.pass below frame frame.entry up, true⟩)

/-- The next entry, if there is one, and the place after it. -/
def next : Option (K × V) × Place K V :=
  (place.step.1.map Cell.entry, place.step.2)

variable {place}

/-- At the end, nothing is yielded. -/
theorem next_of_none (hclimb : Path.climb .left place.path .nil = none) :
    place.next = (none, place) := by
  simp only [next, step, hclimb]
  rfl

/-- Otherwise the entry of the lowest frame on the left is yielded and passed. -/
theorem next_of_climb {below : Tree (Cell K V)} {frame : Frame (Cell K V)} {up : Path (Cell K V)}
    (hclimb : Path.climb .left place.path .nil = some (below, frame, up)) :
    place.next = (some frame.entry.entry, ⟨Path.pass below frame frame.entry up, true⟩) := by
  simp only [next, step, hclimb]
  rfl

end Place

namespace Snapshot

variable (comparator : Comparator σ K) (snapshot : Snapshot σ K V)

/-- The next entry, if there is one, and the place after it, with another value put in. -/
def nextReplacing (value : V) (place : Place K V) :
    Option (K × V) × Place K V × Snapshot σ K V :=
  match Path.climb .left place.path .nil with
  | none => (none, place, snapshot)
  | some (below, frame, up) =>
    let path := Path.pass below frame (frame.entry.withValue value) up
    (some frame.entry.entry, ⟨path, true⟩, snapshot.withTree (Tree.nil.under path))

/-- The empty place to which the comparator leads a key, past all that it calls equal. -/
def trail (key : K) : Path (Cell K V) × Snapshot σ K V :=
  let (path, memory) := snapshot.layout.tree.trail (comparator.probe key) [] snapshot.memory
  (path, { snapshot with memory }.report [.resynchronized (Path.turns path).length])

/-- Take the node of a frame out and look for the place of its key. -/
def cut (below : Tree (Cell K V)) (frame : Frame (Cell K V)) (up : Path (Cell K V)) :
    ((K × V) × Path (Cell K V)) × Snapshot σ K V :=
  let (entry, after) := snapshot.eraseFrame below frame up
  let (path, after) := after.trail comparator entry.1
  ((entry, path), after)

/-- Remove the entry before a place. -/
def removeAt (place : Place K V) : Except Error (K × V) × Place K V × Snapshot σ K V :=
  match place.last? with
  | none => (.error .invalidCursorState, place, snapshot)
  | some (below, frame, up) =>
    let ((entry, path), after) := snapshot.cut comparator below frame up
    (.ok entry, ⟨path, false⟩, after)

variable {comparator snapshot}

/-- Taking a node out hands back its entry and keeps the other cells in order. -/
theorem toList_erase (color : Color) (left : Tree (Cell K V)) (cell : Cell K V)
    (right : Tree (Cell K V)) (path : Path (Cell K V)) :
    (snapshot.erase color left cell right path).1 = cell.entry ∧
      (snapshot.erase color left cell right path).2.layout.tree.toList =
        Path.before path ++ left.toList ++ right.toList ++ Path.after path :=
  ⟨rfl, Tree.toList_erase ..⟩

/-- Taking the node of a frame out keeps what lies around it, and the key is led to a place of
the new tree. -/
theorem of_cut_eq {below : Tree (Cell K V)} {frame : Frame (Cell K V)} {up path : Path (Cell K V)}
    {entry : K × V} {after : Snapshot σ K V}
    (h : snapshot.cut comparator below frame up = ((entry, path), after)) :
    entry = frame.entry.entry ∧
      after.layout.tree.toList = Path.before up ++ (frame.left below).toList ++
        (frame.right below).toList ++ Path.after up ∧
      ∃ memory, (after.layout.tree.trail (comparator.probe entry.1) [] memory).1 = path := by
  rw [cut] at h
  obtain ⟨hentry, hlist⟩ := snapshot.toList_erase frame.color (frame.left below) frame.entry
    (frame.right below) up
  rcases htrail : (snapshot.eraseFrame below frame up).2.trail comparator
    (snapshot.eraseFrame below frame up).1.1 with ⟨place, new⟩
  simp only [htrail] at h
  cases h
  cases htrail
  exact ⟨hentry, hlist, snapshot.memory, rfl⟩

/-- The place found after taking a node out is a place of the new tree. -/
theorem nil_under_of_cut {below : Tree (Cell K V)} {frame : Frame (Cell K V)}
    {up path : Path (Cell K V)} {entry : K × V} {after : Snapshot σ K V}
    (h : snapshot.cut comparator below frame up = ((entry, path), after)) :
    Tree.nil.under path = after.layout.tree := by
  obtain ⟨-, -, memory, rfl⟩ := of_cut_eq h
  exact Tree.nil_under_trail (comparator.probe entry.1) after.layout.tree [] memory

/-- Taking a node out leaves one node less. -/
theorem size_of_cut {below : Tree (Cell K V)} {frame : Frame (Cell K V)}
    {up path : Path (Cell K V)} {entry : K × V} {after : Snapshot σ K V}
    (h : snapshot.cut comparator below frame up = ((entry, path), after)) :
    (Tree.nil.under path).size + 1 = (below.under (frame :: up)).size := by
  obtain ⟨-, hlist, -⟩ := of_cut_eq h
  -- both sizes are numbers of entries, and only that of the frame is gone
  rw [nil_under_of_cut h, ← Tree.length_toList, hlist, ← Tree.length_toList, Tree.under_cons,
    Frame.close_eq_node, Tree.toList_under, Tree.toList]
  simp only [List.length_append, List.length_cons]
  omega

end Snapshot

/-! ## Filtering -/

namespace Tree.Path

variable {α : Type}

/-- A bound on the steps of a traversal from a place on that may remove entries and start
again: one for each entry after the place, and as many as there are nodes for each removal. -/
def effort (path : Path α) : Nat :=
  (nil.under path).size * (nil.under path).size + (after path).length

/-- Nothing lies after a place that is not in the tree. -/
theorem length_after_le (path : Path α) : (after path).length ≤ (nil.under path).size := by
  rw [← length_toList, toList_under, List.length_append]
  omega

/-- Passing an entry keeps the number of nodes. -/
theorem size_pass {path up : Path α} {below : Tree α} {frame : Frame α}
    (h : climb .left path nil = some (below, frame, up)) (entry : α) :
    (nil.under (pass below frame entry up)).size = (nil.under path).size := by
  have hafter := after_eq_cons_of_climb entry h
  rw [← length_toList, ← length_toList, toList_under, toList_under, before_pass entry h, hafter]
  simp only [toList, List.append_nil, List.length_append, List.length_cons, List.length_nil]
  omega

/-- Passing an entry takes one step less. -/
theorem effort_pass {path up : Path α} {below : Tree α} {frame : Frame α}
    (h : climb .left path nil = some (below, frame, up)) (entry : α) :
    effort (pass below frame entry up) + 1 = effort path := by
  rw [effort, effort, size_pass h entry, after_eq_cons_of_climb entry h, List.length_cons]
  omega

/-- A place in a smaller tree takes fewer steps. -/
theorem effort_lt {path smaller : Path α}
    (h : (nil.under smaller).size + 1 = (nil.under path).size) : effort smaller < effort path := by
  have hafter := length_after_le smaller
  rw [effort, effort, ← h, Nat.add_mul, Nat.mul_add]
  omega

/-- From the start, a traversal takes fewer steps than the square of what exceeds the size. -/
theorem effort_spine_lt {tree : Tree α} {steps : Nat} (h : tree.size < steps) :
    effort (tree.spine .left []) < steps * steps := by
  have hafter := length_after_le (tree.spine .left [])
  rw [effort]
  rw [nil_under_spine, under_nil] at hafter ⊢
  have hsquare : (tree.size + 1) * (tree.size + 1) ≤ steps * steps := Nat.mul_le_mul h h
  rw [Nat.add_mul, Nat.mul_add] at hsquare
  omega

end Tree.Path

namespace Snapshot

/-- Keep the entries after a place for which `keep` answers `true`. -/
def retain (comparator : Comparator σ K) (keep : K → V → StateM τ (Bool × V))
    (path : Path (Cell K V)) (snapshot : Snapshot σ K V) (state : τ) : τ × Snapshot σ K V :=
  match _ : Path.climb .left path .nil with
  | none => (state, snapshot)
  | some (below, frame, up) =>
    match keep frame.entry.key frame.entry.value state with
    | ((stays, value), state) =>
      let entry := frame.entry.withValue value
      let passed := Path.pass below frame entry up
      let visited := snapshot.withTree (Tree.nil.under passed)
      if stays then retain comparator keep passed visited state
      else
        match _ : visited.cut comparator frame.sibling ⟨.right, frame.color, entry, below⟩ up with
        | ((removed, place), after) =>
          retain comparator keep place (after.release [removed.2]) state
termination_by Path.effort path
decreasing_by
  all_goals
    have heffort : Path.effort passed + 1 = Path.effort path :=
      Path.effort_pass ‹Path.climb .left path .nil = some (below, frame, up)› entry
  -- without a removal, there is one entry less to come
  · exact Nat.le_of_eq heffort
  -- after a removal, all entries may come again, but there is one node less
  · have hsize : (Tree.nil.under place).size + 1 = (Tree.nil.under passed).size :=
      (size_of_cut ‹cut _ _ _ _ _ = ((removed, place), after)›).trans
        (congrArg Tree.size (Tree.nil_under_spine ..).symm)
    have hlt : Path.effort place < Path.effort passed := Path.effort_lt hsize
    exact Nat.lt_trans hlt (Nat.le_of_eq heffort)

/-- Removing right after an entry takes fewer steps to go on than there were before, since there is
one node less. -/
theorem effort_lt_of_cut {comparator : Comparator σ K} {snapshot after : Snapshot σ K V}
    {below : Tree (Cell K V)} {frame : Frame (Cell K V)} {cell : Cell K V}
    {up place : Path (Cell K V)} {removed : K × V}
    (hcut : snapshot.cut comparator frame.sibling ⟨.right, frame.color, cell, below⟩ up =
      ((removed, place), after)) :
    Path.effort place < Path.effort (Path.pass below frame cell up) :=
  Path.effort_lt ((size_of_cut hcut).trans (congrArg Tree.size (Tree.nil_under_spine ..).symm))

section

variable (comparator : Comparator σ K) (keep : K → V → StateM τ (Bool × V))
  {path up : Path (Cell K V)} {below : Tree (Cell K V)} {frame : Frame (Cell K V)}
  (snapshot : Snapshot σ K V) {state state' : τ} {stays : Bool} {value : V}

/-- Where no entry is left, the filter is done. -/
theorem retain_of_none (hclimb : Path.climb .left path .nil = none) :
    snapshot.retain comparator keep path state = (state, snapshot) := by
  rw [retain]
  split
  · rfl
  · next hsome => cases hclimb.symm.trans hsome

/-- Otherwise it goes on after the next entry, which it may have removed. -/
theorem retain_of_some (hclimb : Path.climb .left path .nil = some (below, frame, up))
    (hkeep : keep frame.entry.key frame.entry.value state = ((stays, value), state')) :
    snapshot.retain comparator keep path state =
      let cell := frame.entry.withValue value
      let passed := Path.pass below frame cell up
      let visited := snapshot.withTree (Tree.nil.under passed)
      if stays then visited.retain comparator keep passed state'
      else
        let ((removed, place), after) :=
          visited.cut comparator frame.sibling ⟨.right, frame.color, cell, below⟩ up
        (after.release [removed.2]).retain comparator keep place state' := by
  rw [retain]
  split
  · next hnone => cases hclimb.symm.trans hnone
  · next hsome =>
    cases hclimb.symm.trans hsome
    simp only [hkeep]

end

/-- What holds of a filter that is done, and holds before a step if it holds after it, holds of
every filter: a step passes the next entry, puts the value that `keep` leaves into it, and may
take it out. -/
theorem retain_induction (comparator : Comparator σ K) (keep : K → V → StateM τ (Bool × V))
    {motive : Path (Cell K V) → Snapshot σ K V → τ → τ × Snapshot σ K V → Prop}
    (done : ∀ (path : Path (Cell K V)) (snapshot : Snapshot σ K V) (state : τ),
      Path.climb .left path .nil = none → motive path snapshot state (state, snapshot))
    (keeps : ∀ (path : Path (Cell K V)) (snapshot : Snapshot σ K V) (state : τ)
      (below : Tree (Cell K V)) (frame : Frame (Cell K V)) (up : Path (Cell K V)) (value : V)
      (state' : τ) (result : τ × Snapshot σ K V),
      Tree.nil.under path = snapshot.layout.tree →
        Path.climb .left path .nil = some (below, frame, up) →
          keep frame.entry.key frame.entry.value state = ((true, value), state') →
            let passed := Path.pass below frame (frame.entry.withValue value) up
            motive passed (snapshot.withTree (Tree.nil.under passed)) state' result →
              motive path snapshot state result)
    (drops : ∀ (path : Path (Cell K V)) (snapshot : Snapshot σ K V) (state : τ)
      (below : Tree (Cell K V)) (frame : Frame (Cell K V)) (up : Path (Cell K V)) (value : V)
      (state' : τ) (removed : K × V) (place : Path (Cell K V)) (after : Snapshot σ K V)
      (result : τ × Snapshot σ K V),
      Tree.nil.under path = snapshot.layout.tree →
        Path.climb .left path .nil = some (below, frame, up) →
          keep frame.entry.key frame.entry.value state = ((false, value), state') →
            let cell := frame.entry.withValue value
            let visited := snapshot.withTree (Tree.nil.under (Path.pass below frame cell up))
            visited.cut comparator frame.sibling ⟨.right, frame.color, cell, below⟩ up =
                ((removed, place), after) →
              motive place (after.release [removed.2]) state' result →
                motive path snapshot state result)
    {path : Path (Cell K V)} {snapshot : Snapshot σ K V}
    (htree : Tree.nil.under path = snapshot.layout.tree) (state : τ) :
    motive path snapshot state (snapshot.retain comparator keep path state) := by
  induction heffort : Path.effort path using Nat.strong_induction_on
    generalizing snapshot path state with
  | h effort ih =>
  subst heffort
  rcases hclimb : Path.climb .left path .nil with _ | ⟨below, frame, up⟩
  · rw [retain_of_none comparator keep snapshot hclimb]
    exact done path snapshot state hclimb
  · rcases hkeep : keep frame.entry.key frame.entry.value state with ⟨⟨stays, value⟩, state'⟩
    let cell := frame.entry.withValue value
    let passed := Path.pass below frame cell up
    let visited := snapshot.withTree (Tree.nil.under passed)
    have hlt : Path.effort passed < Path.effort path :=
      Nat.le_of_eq (Path.effort_pass hclimb cell)
    rw [retain_of_some comparator keep snapshot hclimb hkeep]
    cases stays with
    | true =>
      have hplace : Tree.nil.under passed = visited.layout.tree := rfl
      exact keeps path snapshot state below frame up value state' _ htree hclimb hkeep
        (ih _ hlt hplace state' rfl)
    | false =>
      rcases hcut : visited.cut comparator frame.sibling ⟨.right, frame.color, cell, below⟩ up with
        ⟨⟨removed, place⟩, after⟩
      have hunder := nil_under_of_cut hcut
      have hplace : Tree.nil.under place = (after.release [removed.2]).layout.tree := hunder
      have hrest := ih _ (Nat.lt_trans (effort_lt_of_cut hcut) hlt) hplace state' rfl
      simp only [visited, passed, cell] at hcut
      simp only [hcut]
      exact drops path snapshot state below frame up value state' removed place after _ htree
        hclimb hkeep hcut hrest

/-- Removing right after an entry takes that entry out. -/
theorem removeAt_pass (comparator : Comparator σ K) (snapshot : Snapshot σ K V)
    (below : Tree (Cell K V)) (frame : Frame (Cell K V)) (cell : Cell K V)
    (up : Path (Cell K V)) :
    snapshot.removeAt comparator ⟨Path.pass below frame cell up, true⟩ =
      let ((entry, path), after) :=
        snapshot.cut comparator frame.sibling ⟨.right, frame.color, cell, below⟩ up
      (.ok entry, ⟨path, false⟩, after) := by
  rw [removeAt, Place.last?, if_pos rfl, Path.climb_right_pass]

end Snapshot

/-- The cursor at the place right after an entry remembers the slot of the entry. -/
theorem Place.cursor_pass (below : Tree (Cell K V)) (frame : Frame (Cell K V)) (cell : Cell K V)
    (up : Path (Cell K V)) :
    (⟨Path.pass below frame cell up, true⟩ : Place K V).cursor =
      { pending := Path.pending (Path.pass below frame cell up), yielded := some cell.slot } := by
  -- the entry is the last one before the place
  rw [cursor, last?, if_pos rfl, Path.climb_right_pass]
  rfl

/-- The cursor does not see which value the entry before it has. -/
theorem Place.cursor_pass_withValue (below : Tree (Cell K V)) (frame : Frame (Cell K V))
    (cell : Cell K V) (value : V) (up : Path (Cell K V)) :
    (⟨Path.pass below frame (cell.withValue value) up, true⟩ : Place K V).cursor =
      (⟨Path.pass below frame cell up, true⟩ : Place K V).cursor := by
  rw [cursor_pass, cursor_pass, Path.pending, Path.turns_pass _ cell]
  rfl

namespace Engine.Performs

variable {before : Snapshot σ K V} {path up : Path (Cell K V)} {below : Tree (Cell K V)}
  {frame : Frame (Cell K V)}

/-- A cursor begins before all entries. -/
theorem start (before : Snapshot σ K V) :
    Performs Cursor.start before before (Place.start before.layout.tree).cursor :=
  .bind (.inspect fun _ h => h.leftChain_root) (.pure _ _)

section

variable {cursor : Cursor} (hpending : cursor.pending = Path.pending path)

include hpending

/-- At the end, a cursor stays where it is. -/
theorem step_of_none (hclimb : Path.climb .left path .nil = none) :
    Performs cursor.step before before (none, cursor) := by
  rw [Path.pending, (Path.of_climb_left_eq_none hclimb).1] at hpending
  simp only [Cursor.step, hpending, List.map_nil]
  exact .pure _ _

/-- Otherwise it moves past the next entry. -/
theorem step_of_some (htree : Tree.nil.under path = before.layout.tree)
    (hclimb : Path.climb .left path .nil = some (below, frame, up)) :
    Performs cursor.step before before
      (some frame.entry.slot,
        (⟨Path.pass below frame frame.entry up, true⟩ : Place K V).cursor) := by
  obtain ⟨hturns, -⟩ := Path.of_climb_left_eq_some hclimb
  obtain ⟨-, hunder⟩ := Path.of_climb_eq_some hclimb
  have hnode : below.under (frame :: up) = before.layout.tree := hunder.symm.trans htree
  have hchain : ∀ tree : LinkedTree K V, tree.LaidOut before.layout →
      tree.arena.leftChain (frame.node below.link (Path.owner up)).right (Path.pending up) =
        .ok (Path.pending (Path.pass below frame frame.entry up)) :=
    fun tree h => (htree ▸ h.depicts).leftChain_of_climb hclimb frame.entry
  rw [Path.pending, hturns] at hpending
  rw [Place.cursor_pass]
  simp only [Cursor.step, hpending, List.map_cons]
  exact .bind (.onTree (.node hnode)) (.bind (.inspect hchain) (.pure _ _))

end

theorem next {place : Place K V} (htree : Tree.nil.under place.path = before.layout.tree) :
    Performs place.cursor.next before before (place.next.1, place.next.2.cursor) := by
  rw [Place.next, Place.step]
  rcases hclimb : Path.climb .left place.path .nil with _ | ⟨below, frame, up⟩
  · exact .bind (step_of_none rfl hclimb) (.pure _ _)
  · have hnode := (Path.of_climb_eq_some hclimb).2.symm.trans htree
    refine .bind (step_of_some rfl htree hclimb) (.bind (.onTree (.node hnode)) ?_)
    rw [Frame.entry_node]
    exact .pure _ _

/-- Changing the value of the entry that a cursor has just passed. -/
theorem modifyPassed (htree : Tree.nil.under path = before.layout.tree)
    (hclimb : Path.climb .left path .nil = some (below, frame, up)) (value : V) :
    Performs (Engine.onTree (LinkedTree.modifyNode frame.entry.slot (Node.withValue · value)))
      before
      (before.withTree (Tree.nil.under (Path.pass below frame (frame.entry.withValue value) up)))
      () := by
  have hnode := (Path.of_climb_eq_some hclimb).2.symm.trans htree
  rw [Path.nil_under_pass _ (Path.of_climb_eq_some hclimb).1]
  exact .onTree (.modifyValue hnode fun _ => value)

theorem nextReplacing {place : Place K V}
    (htree : Tree.nil.under place.path = before.layout.tree) (value : V) :
    Performs (place.cursor.nextReplacing value) before (before.nextReplacing value place).2.2
      ((before.nextReplacing value place).1, (before.nextReplacing value place).2.1.cursor) := by
  rw [Snapshot.nextReplacing]
  rcases hclimb : Path.climb .left place.path .nil with _ | ⟨below, frame, up⟩
  · exact .bind (step_of_none rfl hclimb) (.pure _ _)
  · have hnode := (Path.of_climb_eq_some hclimb).2.symm.trans htree
    have hpass : Tree.nil.under (Path.pass below frame (frame.entry.withValue value) up) = _ :=
      Path.nil_under_pass _ (Path.of_climb_eq_some hclimb).1
    simp only [Place.cursor_pass_withValue, hpass]
    -- the frame is one on the left, as it was found
    refine .bind (step_of_some rfl htree hclimb) ?_
    obtain ⟨side, color, cell, sibling⟩ := frame
    cases (Path.of_climb_eq_some hclimb).1
    exact .bind (.onTree (.node hnode)) (.bind (.onTree (.replaceValue hnode value)) (.pure _ _))

/-- The descent to the place of a key finds the nodes at which it turns left. -/
theorem turnsWithin {comparator : Comparator σ K} {key : K} {tree : Tree (Cell K V)} {steps : Nat}
    (path : Path (Cell K V)) (htree : tree.under path = before.layout.tree)
    (hsteps : tree.size ≤ steps) :
    Performs (Cursor.turnsWithin comparator key steps tree.link (Path.pending path)) before
      { before with memory := (tree.trail (comparator.probe key) path before.memory).2 }
      (Path.pending (tree.trail (comparator.probe key) path before.memory).1) := by
  induction tree generalizing path before steps with
  | nil => cases steps <;> exact .pure _ _
  | node color left cell right ihl ihr =>
    rw [Tree.size] at hsteps
    obtain ⟨steps, rfl⟩ : ∃ k, steps = k + 1 := Nat.exists_eq_succ_of_ne_zero (by omega)
    refine .bind (.onTree (.node_root htree)) ?_
    rw [Tree.trail]
    rcases hask : comparator.probe key cell before.memory with ⟨answer, memory⟩
    refine .bind (.ask hask) ?_
    cases answer with
    | lt => exact ihl (⟨.left, color, cell, right⟩ :: path) htree (by omega)
    | eq => exact ihr (⟨.right, color, cell, left⟩ :: path) htree (by omega)
    | gt => exact ihr (⟨.right, color, cell, left⟩ :: path) htree (by omega)

/-- The cursor that goes on after a removed key. -/
theorem resume (comparator : Comparator σ K) (key : K) (before : Snapshot σ K V) :
    Performs (Cursor.resume comparator key) before (before.trail comparator key).2
      (⟨(before.trail comparator key).1, false⟩ : Place K V).cursor := by
  refine .budget fun steps hsteps => ?_
  refine .bind (.onTree (.getRoot before.layout)) ?_
  refine .bind (turnsWithin [] (Tree.under_nil _) (Nat.le_of_lt hsteps)) ?_
  rw [Path.pending, List.length_map]
  exact .bind (.report _ _) (.pure _ _)

/-- Taking the node of a frame out and going on after its key. -/
theorem cut (comparator : Comparator σ K) (htree : below.under (frame :: up) = before.layout.tree) :
    Performs
      (do
        let entry ← Engine.eraseNode frame.entry.slot
        return ((Except.ok entry : Except Error (K × V)), ← Cursor.resume comparator entry.1))
      before (before.cut comparator below frame up).2
      (.ok (before.cut comparator below frame up).1.1,
        (⟨(before.cut comparator below frame up).1.2, false⟩ : Place K V).cursor) :=
  .bind (eraseFrame htree) (.bind (resume comparator _ _) (.pure _ _))

theorem removeAt (comparator : Comparator σ K) {place : Place K V}
    (htree : Tree.nil.under place.path = before.layout.tree) :
    Performs (place.cursor.remove comparator) before (before.removeAt comparator place).2.2
      ((before.removeAt comparator place).1, (before.removeAt comparator place).2.1.cursor) := by
  have hyielded := place.yielded_cursor
  rw [Snapshot.removeAt]
  rcases hlast : place.last? with _ | ⟨below, frame, up⟩
  · rw [hlast] at hyielded
    simp only [Cursor.remove, hyielded, Option.map_none]
    exact .pure _ _
  · rw [hlast] at hyielded
    have hnode := (Path.of_climb_eq_some (Place.climb_of_last? hlast)).2.symm.trans htree
    simp only [Cursor.remove, hyielded, Option.map_some]
    exact cut comparator hnode

/-- The filter on links is the filter on places. -/
theorem retainWithin (comparator : Comparator σ K) (keep : K → V → StateM τ (Bool × V))
    {cursor : Cursor} {steps : Nat} (hpending : cursor.pending = Path.pending path)
    (htree : Tree.nil.under path = before.layout.tree) (hsteps : Path.effort path < steps)
    (state : τ) :
    Performs (Engine.retainWithin comparator keep steps cursor state) before
      (before.retain comparator keep path state).2
      (before.retain comparator keep path state).1 := by
  induction steps generalizing cursor path before state with
  | zero => exact absurd hsteps (Nat.not_lt_zero _)
  | succ steps ih =>
    rcases hclimb : Path.climb .left path .nil with _ | ⟨below, frame, up⟩
    · rw [Snapshot.retain_of_none comparator keep before hclimb]
      exact .bind (step_of_none hpending hclimb) (.pure _ _)
    · rcases hkeep : keep frame.entry.key frame.entry.value state with ⟨⟨stays, value⟩, state'⟩
      let passed := Path.pass below frame (frame.entry.withValue value) up
      -- the step itself is paid by the entry that it passes
      have hlt : Path.effort passed < steps :=
        Nat.lt_of_lt_of_le (Nat.le_of_eq (Path.effort_pass hclimb _)) (Nat.le_of_lt_succ hsteps)
      have hnode := (Path.of_climb_eq_some hclimb).2.symm.trans htree
      have hpassed : (⟨passed, true⟩ : Place K V).cursor = _ :=
        Place.cursor_pass_withValue below frame frame.entry value up
      rw [Snapshot.retain_of_some comparator keep before hclimb hkeep]
      refine .bind (step_of_some hpending htree hclimb) (.bind (.onTree (.node hnode)) ?_)
      simp only [Frame.key_node, Frame.value_node, hkeep, ← hpassed]
      refine .bind (modifyPassed htree hclimb value) ?_
      cases stays with
      | true => exact ih rfl rfl hlt state'
      | false =>
        refine .bind (removeAt comparator rfl) ?_
        rw [Snapshot.removeAt_pass]
        let visited := before.withTree (Tree.nil.under passed)
        rcases hcut : Snapshot.cut comparator visited frame.sibling
          ⟨.right, frame.color, frame.entry.withValue value, below⟩ up with
          ⟨⟨removed, place⟩, after⟩
        have hcutplace := Snapshot.nil_under_of_cut hcut
        have hplace : Tree.nil.under place = (after.release [removed.2]).layout.tree := hcutplace
        have hpending : (⟨place, false⟩ : Place K V).cursor.pending = Path.pending place := rfl
        refine .bind (.release _ _) ?_
        -- the tree has lost a node, which pays for starting over
        exact ih hpending hplace (Nat.lt_trans (Snapshot.effort_lt_of_cut hcut) hlt) state'

/-- Filtering a container. -/
theorem retain (comparator : Comparator σ K) (keep : K → V → StateM τ (Bool × V)) (state : τ)
    (before : Snapshot σ K V) :
    Performs (Engine.retain comparator keep state) before
      (before.retain comparator keep (before.layout.tree.spine .left []) state).2
      (before.retain comparator keep (before.layout.tree.spine .left []) state).1 := by
  refine .budget fun steps hsteps => .bind (start before) ?_
  have htree := Tree.nil_under_spine .left before.layout.tree []
  exact retainWithin comparator keep rfl htree (Path.effort_spine_lt hsteps) state

end Engine.Performs

end RedBlack
