import RedBlack.Proofs.SortedList.Access

/-!
# Traversals of Sorted Lists

A cursor under a comparator that follows an order is a traversal of the sorted list: the
entries before its place are those that it has yielded and not removed, and those after it
are still to come (`Stands`). A removal sends the key of the removed entry down the tree, which
leads exactly to the place between the smaller and the greater keys, so no entry is yielded
twice or passed over (`Stands.cut`). A filter is a single pass over the list for the same
reason (`Stands.retain`).
-/

namespace RedBlack

open RedBlack.Tree (Frame Path)

variable {σ τ K V : Type}

namespace SortedList

/-- A cursor stands at a place of the tree as a traversal stands in the list. -/
structure Stands (order : Order K) (snapshot : Snapshot σ K V) (place : Place K V)
    (traversal : Traversal K V) : Prop where
  /-- The place is one of the tree. -/
  tree : Tree.nil.under place.path = snapshot.layout.tree
  /-- The entries before the place were passed. -/
  passed : (Path.before place.path).map Cell.entry = traversal.passed
  /-- The entries after the place are to come. -/
  ahead : (Path.after place.path).map Cell.entry = traversal.ahead
  /-- Both agree on whether there is an entry to remove. -/
  removable : place.removable = traversal.removable
  /-- The list is ascending. -/
  ascending : Ascending order traversal.entries

variable {order : Order K} {comparator : Comparator σ K} {snapshot after : Snapshot σ K V}
  {entries : List (K × V)} {place : Place K V} {traversal : Traversal K V}
  {below : Tree (Cell K V)} {frame : Frame (Cell K V)} {up path : Path (Cell K V)}

/-- The key of an entry parts the others. -/
theorem parts_key [Std.TransCmp order] {front back : List (Cell K V)} {cell : Cell K V}
    (h : Ascending order ((front ++ cell :: back).map Cell.entry)) :
    (∀ other ∈ front, order cell.key other.key = .gt) ∧
      ∀ other ∈ back, order cell.key other.key = .lt := by
  rw [List.map_append, List.map_cons] at h
  obtain ⟨hfront, hback⟩ := h.parts
  exact ⟨fun _ hother => hfront _ (List.mem_map_of_mem hother),
    fun _ hother => hback _ (List.mem_map_of_mem hother)⟩

namespace Stands

section

variable (h : Stands order snapshot place traversal)

include h

theorem agrees : Agrees order snapshot traversal.entries := by
  refine ⟨?_, h.ascending⟩
  rw [Snapshot.entries, ← h.tree, Tree.toList_under, Traversal.entries, ← h.passed, ← h.ahead]
  simp [Tree.toList]

theorem congr (after : Snapshot σ K V) (hlayout : after.layout.tree = snapshot.layout.tree) :
    Stands order after place traversal :=
  ⟨h.tree.trans hlayout.symm, h.passed, h.ahead, h.removable, h.ascending⟩

/-- At the end of the tree, nothing is to come. -/
theorem ahead_eq_nil (hclimb : Path.climb .left place.path .nil = none) :
    traversal.ahead = [] := by
  rw [← h.ahead, (Path.of_climb_left_eq_none hclimb).2]
  rfl

/-- Otherwise the next entry is that of the lowest frame on the left. -/
theorem ahead_eq_cons (hclimb : Path.climb .left place.path .nil = some (below, frame, up))
    (cell : Cell K V) :
    traversal.ahead = frame.entry.entry ::
      (Path.after (Path.pass below frame cell up)).map Cell.entry := by
  rw [← h.ahead, Path.after_eq_cons_of_climb cell hclimb, List.map_cons]

/-- Passing the next entry, and putting another value in its place. -/
theorem pass (hclimb : Path.climb .left place.path .nil = some (below, frame, up))
    (change : V → V)
    (hafter : Tree.nil.under
      (Path.pass below frame (frame.entry.withValue (change frame.entry.value)) up) =
        after.layout.tree) :
    (traversal.yield change).1 = some frame.entry.entry ∧
      Stands order after
        ⟨Path.pass below frame (frame.entry.withValue (change frame.entry.value)) up, true⟩
        (traversal.yield change).2 := by
  let entry := frame.entry.withValue (change frame.entry.value)
  have hbefore := Path.before_pass entry hclimb
  have hahead := h.ahead_eq_cons hclimb entry
  have hascending := h.ascending
  rw [Traversal.entries, hahead] at hascending
  refine ⟨by rw [Traversal.yield, hahead], ?_⟩
  rw [Traversal.yield, hahead]
  exact
    { tree := hafter
      passed := by
        rw [hbefore, List.map_append, h.passed]
        rfl
      ahead := rfl
      removable := rfl
      ascending := by
        refine hascending.of_keys_sublist ?_
        simp [Traversal.entries, Cell.entry] }

/-- Removing the entry before the place leads to the place between the smaller and the
greater keys. -/
theorem cut [Std.TransCmp order] (hfollows : comparator.Follows order) {removed : K × V}
    (hclimb : Path.climb .right place.path .nil = some (below, frame, up))
    (hcut : snapshot.cut comparator below frame up = ((removed, path), after)) :
    traversal.passed.getLast? = some removed ∧
      Stands order after ⟨path, false⟩
        { traversal with passed := traversal.passed.dropLast, removable := false } := by
  obtain ⟨rfl, hlist, memory, htrail⟩ := Snapshot.of_cut_eq hcut
  have hunder := Snapshot.nil_under_of_cut hcut
  obtain ⟨hbefore, hafter⟩ := Path.of_climb_right_eq_some hclimb
  obtain ⟨hside, -⟩ := Path.of_climb_eq_some hclimb
  obtain ⟨side, color, cell, sibling⟩ := frame
  cases hside
  -- the entries around the removed one
  let front := Path.before up ++ sibling.toList
  let back := below.toList ++ Path.after up
  have hpassed : traversal.passed = front.map Cell.entry ++ [cell.entry] := by
    rw [← h.passed, hbefore, ← List.append_assoc, List.map_append]
    rfl
  have hahead : traversal.ahead = back.map Cell.entry := by
    rw [← h.ahead]
    exact congrArg (List.map Cell.entry) hafter
  have hnew : after.layout.tree.toList = front ++ back := by
    rw [hlist, List.append_assoc]
    rfl
  have hentries : traversal.entries = (front ++ cell :: back).map Cell.entry := by
    rw [Traversal.entries, hpassed, hahead]
    simp
  obtain ⟨hfront, hback⟩ := parts_key (hentries ▸ h.ascending)
  have hask : ∀ (other : Cell K V) memory,
      (comparator.probe cell.key other memory).1 = order cell.key other.key :=
    fun other memory => hfollows cell.key other.key memory
  have htrail : (after.layout.tree.trail (comparator.probe cell.key) [] memory).1 = path := htrail
  obtain ⟨hbefore', hafter'⟩ := Tree.trail_between hask hnew hfront hback memory
  rw [htrail] at hbefore' hafter'
  refine ⟨by rw [hpassed, List.getLast?_concat], hunder, ?_, ?_, rfl, ?_⟩
  · rw [hbefore', hpassed, List.dropLast_concat]
  · rw [hafter', hahead]
  · refine h.ascending.of_keys_sublist (List.Sublist.map Prod.fst ?_)
    exact (List.dropLast_sublist traversal.passed).append_right traversal.ahead

end

theorem move [Std.TransCmp order] (hfollows : comparator.Follows order)
    (h : Stands order snapshot place traversal) (move : Cursor.Move V) :
    (snapshot.move comparator place move).1 = (traversal.move move).1 ∧
      Stands order (snapshot.move comparator place move).2.2
        (snapshot.move comparator place move).2.1 (traversal.move move).2 := by
  cases move with
  | next =>
    simp only [Snapshot.move, Traversal.move, Place.next, Place.step]
    rcases hclimb : Path.climb .left place.path .nil with _ | ⟨below, frame, up⟩
    · rw [Traversal.yield, h.ahead_eq_nil hclimb]
      exact ⟨rfl, h⟩
    -- passing an entry without changing it leaves the tree as it is
    · have htree : Tree.nil.under (Path.pass below frame frame.entry up) =
          snapshot.layout.tree := by
        obtain ⟨hside, hunder⟩ := Path.of_climb_eq_some hclimb
        rw [Path.nil_under_pass _ hside, ← h.tree, hunder]
      obtain ⟨hentry, hstands⟩ := h.pass hclimb id htree
      exact ⟨congrArg Cursor.Outcome.yielded hentry.symm, hstands⟩
  | replace value =>
    simp only [Snapshot.move, Traversal.move, Snapshot.nextReplacing]
    rcases hclimb : Path.climb .left place.path .nil with _ | ⟨below, frame, up⟩
    · rw [Traversal.yield, h.ahead_eq_nil hclimb]
      exact ⟨rfl, h⟩
    · let path := Path.pass below frame (frame.entry.withValue value) up
      have htree : Tree.nil.under path =
          (snapshot.withTree (Tree.nil.under path)).layout.tree := rfl
      obtain ⟨hentry, hstands⟩ := h.pass hclimb (fun _ => value) htree
      exact ⟨congrArg Cursor.Outcome.yielded hentry.symm, hstands⟩
  | hasNext =>
    refine ⟨?_, h⟩
    simp only [Snapshot.move, Traversal.move, ← h.ahead, List.isEmpty_map]
  | remove =>
    simp only [Snapshot.move, Traversal.move, Snapshot.removeAt, Place.last?, h.removable,
      Traversal.remove]
    cases hremovable : traversal.removable with
    | false => exact ⟨rfl, h⟩
    | true =>
      rcases hclimb : Path.climb .right place.path .nil with _ | ⟨below, frame, up⟩
      · have hpassed : traversal.passed = [] := by
          rw [← h.passed, Path.of_climb_right_eq_none hclimb]
          rfl
        simp only [if_pos, hpassed]
        exact ⟨rfl, h⟩
      · rcases hcut : snapshot.cut comparator below frame up with ⟨⟨removed, path⟩, after⟩
        obtain ⟨hlast, hstands⟩ := h.cut hfollows hclimb hcut
        simp only [if_pos, hcut, hlast]
        exact ⟨trivial, hstands⟩

theorem moves [Std.TransCmp order] (hfollows : comparator.Follows order)
    (h : Stands order snapshot place traversal) (moves : List (Cursor.Move V)) :
    (snapshot.moves comparator place moves).1 = (traversal.moves moves).1 ∧
      Stands order (snapshot.moves comparator place moves).2.2
        (snapshot.moves comparator place moves).2.1 (traversal.moves moves).2 := by
  induction moves generalizing snapshot place traversal with
  | nil => exact ⟨rfl, h⟩
  | cons step steps ih =>
    obtain ⟨houtcome, hstands⟩ := h.move hfollows step
    obtain ⟨houtcomes, hfinal⟩ := ih hstands
    refine ⟨?_, hfinal⟩
    simp only [Snapshot.moves, Traversal.moves, houtcome, houtcomes]

end Stands

namespace Agrees

/-- A cursor before all entries stands where a traversal starts. -/
theorem stands_start (h : Agrees order snapshot entries) :
    Stands order snapshot (.start snapshot.layout.tree) (.start entries) := by
  have hbefore := Tree.before_spine_left snapshot.layout.tree []
  have hafter := Tree.after_spine_left snapshot.layout.tree []
  refine ⟨Tree.nil_under_spine .left snapshot.layout.tree [], ?_, ?_, rfl, h.ascending⟩
  · rw [Place.start, hbefore]
    rfl
  · rw [Place.start, hafter, Path.after, List.append_nil]
    exact h.entries_eq

theorem traverse [Std.TransCmp order] (hfollows : comparator.Follows order)
    (h : Agrees order snapshot entries) (moves : List (Cursor.Move V)) :
    Conforms order (snapshot.perform comparator (.traverse moves : Operation τ K V))
      (perform order (.traverse moves) entries) := by
  obtain ⟨houtcomes, hstands⟩ := h.stands_start.moves hfollows moves
  exact .of_some (congrArg Answer.traversed houtcomes) hstands.agrees

end Agrees

/-- A filter is a single pass over the entries to come. -/
theorem Stands.retain [Std.TransCmp order] (hfollows : comparator.Follows order)
    (h : Stands order snapshot place traversal) (keep : K → V → StateM τ (Bool × V))
    (state : τ) :
    (snapshot.retain comparator keep place.path state).1 =
        (SortedList.retain keep traversal.ahead state).1 ∧
      Agrees order (snapshot.retain comparator keep place.path state).2
        (traversal.passed ++ (SortedList.retain keep traversal.ahead state).2) := by
  obtain ⟨passed, ahead, removable⟩ := traversal
  induction ahead generalizing snapshot place passed removable state with
  | nil =>
    rcases hclimb : Path.climb .left place.path .nil with _ | ⟨below, frame, up⟩
    · rw [Snapshot.retain_of_none comparator keep snapshot hclimb]
      exact ⟨rfl, h.agrees⟩
    · cases h.ahead_eq_cons hclimb frame.entry
  | cons entry rest ih =>
    rcases hclimb : Path.climb .left place.path .nil with _ | ⟨below, frame, up⟩
    · cases h.ahead_eq_nil hclimb
    · cases h.ahead_eq_cons hclimb frame.entry
      rcases hkeep : keep frame.entry.key frame.entry.value state with ⟨⟨stays, value⟩, state'⟩
      -- the value is replaced first, and the entry removed afterwards
      let passedPath := Path.pass below frame (frame.entry.withValue value) up
      have htree : Tree.nil.under passedPath =
          (snapshot.withTree (Tree.nil.under passedPath)).layout.tree := rfl
      obtain ⟨-, hpass⟩ := h.pass hclimb (fun _ => value) htree
      rw [Snapshot.retain_of_some comparator keep snapshot hclimb hkeep]
      simp only [SortedList.retain, Cell.entry, hkeep]
      cases stays with
      | true =>
        obtain ⟨hstate, hagrees⟩ := ih state' _ _ hpass
        rw [List.append_assoc] at hagrees
        exact ⟨hstate, hagrees⟩
      | false =>
        rcases hcut : (snapshot.withTree (Tree.nil.under passedPath)).cut comparator frame.sibling
          ⟨.right, frame.color, frame.entry.withValue value, below⟩ up with
          ⟨⟨removed, path⟩, after⟩
        obtain ⟨-, hstands⟩ := hpass.cut hfollows (Path.climb_right_pass _) hcut
        simp only [Traversal.yield, List.dropLast_concat] at hstands
        exact ih state' _ _ (hstands.congr (after.release [removed.2]) rfl)

theorem Agrees.retain [Std.TransCmp order] (hfollows : comparator.Follows order)
    (h : Agrees order snapshot entries) (keep : K → V → StateM τ (Bool × V)) (state : τ) :
    Conforms order (snapshot.perform comparator (.retain keep state : Operation τ K V))
      (perform order (.retain keep state) entries) := by
  obtain ⟨hstate, hagrees⟩ := h.stands_start.retain hfollows keep state
  exact .of_some (congrArg Answer.retained hstate) hagrees

end SortedList

end RedBlack
