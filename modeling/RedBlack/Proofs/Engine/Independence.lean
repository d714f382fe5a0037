import RedBlack.Proofs.Engine.Outline
import RedBlack.Proofs.Engine.Reachable
import RedBlack.Proofs.Tree.Mapping

/-!
# Independence of Slots

The numbers of slots, which of them are vacant, and how many fit never show. Forgetting the slots
of a snapshot (`Snapshot.outline`) commutes with every operation that storage does not refuse
(`Snapshot.perform_outline`): the repairs and walks commute with it since they work on any
entries, and the rest of each operation handles slots without comparing them. So two reachable
trees of the same shape show the same after every sequence of operations, and the same as a
container without slots (`Engine.slots_do_not_show`).
-/

namespace RedBlack

open RedBlack.Tree (Frame Path)

variable {σ τ K V : Type}

/-! ## Forgetting the slots -/

/-- The snapshot without its slots. -/
def Snapshot.outline (snapshot : Snapshot σ K V) : Outline σ K V :=
  { tree := snapshot.layout.tree.entries
    memory := snapshot.memory
    trace := snapshot.trace
    released := snapshot.released }

/-- The place without the slots around it. -/
def Place.outline (place : Place K V) : Outline.Place K V :=
  { path := place.path.map Cell.entry, removable := place.removable }

namespace Snapshot

variable (comparator : Comparator σ K) (key : K) (snapshot : Snapshot σ K V)

/-! ### Access by key and by position -/

theorem seek_outline :
    snapshot.outline.seek comparator key =
      (snapshot.seek comparator key).map
        (Prod.map (Tree.map Cell.entry) (Tree.Path.map Cell.entry)) outline := by
  have h := Tree.seek_map Cell.entry (comparator.consult key) snapshot.layout.tree []
    snapshot.memory
  exact congrArg (fun result => (result.1, { snapshot.outline with memory := result.2 })) h

/-- Putting a node back into its place, with another cell. -/
theorem withTree_outline (color : Color) (left : Tree (Cell K V)) (cell : Cell K V)
    (right : Tree (Cell K V)) (path : Path (Cell K V)) :
    snapshot.outline.withTree
        ((Tree.node color (left.map Cell.entry) cell.entry (right.map Cell.entry)).under
          (path.map Cell.entry)) =
      (snapshot.withTree ((Tree.node color left cell right).under path)).outline :=
  congrArg snapshot.outline.withTree (Tree.under_map Cell.entry (.node color left cell right) path)

theorem contains_outline :
    snapshot.outline.contains comparator key =
      (snapshot.contains comparator key).map id outline := by
  rw [Outline.contains, seek_outline, contains]
  rcases snapshot.seek comparator key with ⟨⟨_ | ⟨color, left, cell, right⟩, path⟩, after⟩
  · rfl
  · rfl

theorem get_outline :
    snapshot.outline.get comparator key = (snapshot.get comparator key).map id outline := by
  rw [Outline.get, seek_outline, get]
  rcases snapshot.seek comparator key with ⟨⟨_ | ⟨color, left, cell, right⟩, path⟩, after⟩
  · rfl
  · rfl

theorem update_outline (change : V → V) :
    snapshot.outline.update comparator key change =
      (snapshot.update comparator key change).map id outline := by
  rw [Outline.update, seek_outline, update]
  rcases snapshot.seek comparator key with ⟨⟨_ | ⟨color, left, cell, right⟩, path⟩, after⟩
  · rfl
  · have htree := withTree_outline after color left (cell.withValue (change cell.value)) right path
    exact congrArg (Prod.mk (Except.ok (change cell.value))) htree

/-- Unless storage is refused, a new entry comes into the same place. -/
theorem insertAt_outline {path : Path (Cell K V)} {value : V}
    (h : (snapshot.insertAt key path value).1 ≠ .error .allocationFailure) :
    (Except.ok none, snapshot.outline.insertAt key (path.map Cell.entry) value) =
      (snapshot.insertAt key path value).map id outline := by
  rcases hallot : Arena.allot snapshot.layout.tree.size snapshot.layout.vacated
    snapshot.layout.capacity snapshot.layout.room with cause | ⟨slot, vacated, capacity⟩
  all_goals simp only [insertAt, Layout.insert, hallot] at h ⊢
  · exact absurd rfl h
  · have hrepair := Tree.repairRed_map Cell.entry
      (.node .red .nil (⟨slot, key, value⟩ : Cell K V) .nil) path
    simp only [Tree.map_node, Tree.map_nil, Cell.entry] at hrepair
    rw [Outline.insertAt, hrepair]
    rfl

theorem erase_outline (color : Color) (left : Tree (Cell K V)) (cell : Cell K V)
    (right : Tree (Cell K V)) (path : Path (Cell K V)) :
    snapshot.outline.erase color (left.map Cell.entry) cell.entry (right.map Cell.entry)
        (path.map Cell.entry) =
      (snapshot.erase color left cell right path).map id outline := by
  rw [Outline.erase, Tree.erase_map]
  rfl

theorem eraseFrame_outline (below : Tree (Cell K V)) (frame : Frame (Cell K V))
    (path : Path (Cell K V)) :
    snapshot.outline.eraseFrame (below.map Cell.entry) (frame.map Cell.entry)
        (path.map Cell.entry) =
      (snapshot.eraseFrame below frame path).map id outline := by
  rw [Outline.eraseFrame, Frame.left_map, Frame.right_map]
  exact erase_outline ..

theorem remove_outline :
    snapshot.outline.remove comparator key = (snapshot.remove comparator key).map id outline := by
  rw [Outline.remove, seek_outline, remove]
  rcases snapshot.seek comparator key with ⟨⟨_ | ⟨color, left, cell, right⟩, path⟩, after⟩
  · rfl
  · simp only [Prod.map, Tree.map_node, erase_outline, id]

theorem spine_outline (side : Side) :
    snapshot.outline.tree.spine side [] =
      (snapshot.layout.tree.spine side []).map Cell.entry :=
  Tree.spine_map Cell.entry side snapshot.layout.tree []

theorem outermost_outline (side : Side) :
    snapshot.outline.outermost side = snapshot.outermost side := by
  rw [Outline.outermost, spine_outline, outermost]
  rcases snapshot.layout.tree.spine side [] with _ | ⟨frame, path⟩
  · rfl
  · rfl

theorem pop_outline (side : Side) :
    snapshot.outline.pop side = (snapshot.pop side).map id outline := by
  rw [Outline.pop, spine_outline, pop]
  rcases snapshot.layout.tree.spine side [] with _ | ⟨frame, path⟩
  · rfl
  · have herase := snapshot.eraseFrame_outline .nil frame path
    simp only [Tree.map_nil, Tree.Path.map] at herase
    simp only [List.map_cons, herase, Prod.map, id]

theorem values_outline :
    snapshot.outline.tree.postorder.map Prod.snd = snapshot.layout.tree.values :=
  snapshot.layout.tree.values_entries

theorem clear_outline : snapshot.outline.clear = snapshot.clear.outline := by
  have hvalues := snapshot.values_outline
  have hsize : snapshot.outline.tree.size = snapshot.layout.tree.size :=
    Tree.size_map Cell.entry snapshot.layout.tree
  rw [Outline.clear, clear, Layout.clear]
  rcases htree : snapshot.layout.tree with _ | ⟨color, left, cell, right⟩
  · have hempty : snapshot.outline.tree = .nil := congrArg Tree.entries htree
    simp only [hempty, report, release, Array.appendList_nil]
  · have hnode : snapshot.outline.tree = _ := congrArg Tree.entries htree
    rw [htree] at hvalues hsize
    rw [Tree.entries, Tree.map_node] at hnode
    simp only [hnode]
    rw [← hnode, hvalues, hsize]
    rfl

/-- Storing an entry, unless storage is refused. -/
theorem insert_outline {value : V} {policy : DuplicatePolicy}
    (h : (snapshot.insert comparator key value policy).1 ≠ .error .allocationFailure) :
    snapshot.outline.insert comparator key value policy =
      (snapshot.insert comparator key value policy).map id outline := by
  rw [insert] at h
  rw [Outline.insert, seek_outline, insert]
  rcases hseek : snapshot.seek comparator key with
    ⟨⟨_ | ⟨color, left, cell, right⟩, path⟩, after⟩
  · rw [hseek] at h
    exact insertAt_outline key after h
  · cases policy with
    | overwrite =>
      have htree := withTree_outline after color left (cell.withValue value) right path
      exact congrArg (Prod.mk (Except.ok (some cell.value))) htree
    | reject => rfl

/-! ### Cursors and filters -/

theorem trail_outline :
    snapshot.outline.trail comparator key =
      (snapshot.trail comparator key).map (Tree.Path.map Cell.entry) outline := by
  have h := Tree.trail_map Cell.entry (comparator.consult key) snapshot.layout.tree []
    snapshot.memory
  have hlength : ∀ path : Path (Cell K V),
      (Path.turns (path.map Cell.entry)).length = (Path.turns path).length := fun path => by
    rw [Path.turns_map, List.length_map]
  have htrail : snapshot.outline.tree.trail (comparator.consult key) [] snapshot.outline.memory =
    _ := h
  rw [Outline.trail, htrail, trail]
  simp only [hlength, Prod.map]
  rfl

theorem cut_outline (below : Tree (Cell K V)) (frame : Frame (Cell K V)) (up : Path (Cell K V)) :
    snapshot.outline.cut comparator (below.map Cell.entry) (frame.map Cell.entry)
        (up.map Cell.entry) =
      (snapshot.cut comparator below frame up).map (Prod.map id (Tree.Path.map Cell.entry))
        outline := by
  rw [Outline.cut, eraseFrame_outline]
  simp only [Prod.map, id, trail_outline]
  rfl

end Snapshot

namespace Place

variable (place : Place K V)

theorem last?_outline :
    place.outline.last? = place.last?.map fun (below, frame, up) =>
      (below.map Cell.entry, frame.map Cell.entry, up.map Cell.entry) := by
  rw [Outline.Place.last?, last?]
  by_cases hremovable : place.removable
  · rw [if_pos hremovable]
    exact (if_pos hremovable).trans (Path.climb_map Cell.entry .right place.path .nil)
  · rw [if_neg hremovable]
    exact if_neg hremovable

theorem next_outline : place.outline.next = place.next.map id outline := by
  have h : Path.climb .left place.outline.path .nil = _ :=
    Path.climb_map Cell.entry .left place.path .nil
  rw [Outline.Place.next, next, step, h]
  rcases Path.climb .left place.path .nil with _ | ⟨below, frame, up⟩
  · rfl
  · have hpass := Path.pass_map Cell.entry below frame frame.entry up
    simp only [Option.map_some, Frame.entry_map, hpass]
    rfl

end Place

namespace Snapshot

variable (comparator : Comparator σ K) (snapshot : Snapshot σ K V)

theorem withTree_nil_under_outline (path : Path (Cell K V)) :
    snapshot.outline.withTree (Tree.nil.under (path.map Cell.entry)) =
      (snapshot.withTree (Tree.nil.under path)).outline :=
  congrArg snapshot.outline.withTree (Tree.under_map Cell.entry .nil path)

/-- Passing an entry and putting another value into its place. -/
theorem pass_outline (below : Tree (Cell K V)) (frame : Frame (Cell K V)) (value : V)
    (up : Path (Cell K V)) :
    Path.pass (below.map Cell.entry) (frame.map Cell.entry)
        ((frame.map Cell.entry).entry.1, value) (up.map Cell.entry) =
      (Path.pass below frame (frame.entry.withValue value) up).map Cell.entry :=
  Path.pass_map Cell.entry below frame (frame.entry.withValue value) up

theorem nextReplacing_outline (value : V) (place : Place K V) :
    snapshot.outline.nextReplacing value place.outline =
      (snapshot.nextReplacing value place).map id (Prod.map Place.outline outline) := by
  have h : Path.climb .left place.outline.path .nil = _ :=
    Path.climb_map Cell.entry .left place.path .nil
  rw [Outline.nextReplacing, nextReplacing, h]
  rcases Path.climb .left place.path .nil with _ | ⟨below, frame, up⟩
  · rfl
  · simp only [Option.map_some, pass_outline, withTree_nil_under_outline]
    rfl

theorem removeAt_outline (place : Place K V) :
    snapshot.outline.removeAt comparator place.outline =
      (snapshot.removeAt comparator place).map id (Prod.map Place.outline outline) := by
  rw [Outline.removeAt, removeAt, Place.last?_outline]
  rcases place.last? with _ | ⟨below, frame, up⟩
  · rfl
  · simp only [Option.map_some, cut_outline]
    rfl

theorem move_outline (place : Place K V) (move : Cursor.Move V) :
    snapshot.outline.move comparator place.outline move =
      (snapshot.move comparator place move).map id (Prod.map Place.outline outline) := by
  cases move with
  | next =>
    rw [Outline.move, Place.next_outline]
    rfl
  | replace value =>
    rw [Outline.move, nextReplacing_outline]
    rfl
  | hasNext =>
    have hafter : Path.after place.outline.path = _ := Path.after_map Cell.entry place.path
    rw [Outline.move, hafter, List.isEmpty_map]
    rfl
  | remove =>
    rw [Outline.move, removeAt_outline]
    rfl

theorem moves_outline (place : Place K V) (moves : List (Cursor.Move V)) :
    snapshot.outline.moves comparator place.outline moves =
      ((snapshot.moves comparator place moves).1,
        (snapshot.moves comparator place moves).2.2.outline) := by
  induction moves generalizing snapshot place with
  | nil => rfl
  | cons move moves ih =>
    rw [Outline.moves, move_outline]
    simp only [Prod.map, id, ih]
    rfl

theorem retainWithin_outline {steps : Nat} (keep : K → V → StateM τ (Bool × V))
    {path : Path (Cell K V)} (htree : Tree.nil.under path = snapshot.layout.tree)
    (hsteps : Path.effort path < steps) (state : τ) :
    Outline.retainWithin comparator keep steps (path.map Cell.entry) snapshot.outline state =
      (snapshot.retain comparator keep path state).map id outline := by
  induction steps generalizing snapshot path state with
  | zero => exact absurd hsteps (Nat.not_lt_zero _)
  | succ steps ih =>
    have h : Path.climb .left (path.map Cell.entry) .nil = _ :=
      Path.climb_map Cell.entry .left path .nil
    rw [Outline.retainWithin, h]
    rcases hclimb : Path.climb .left path .nil with _ | ⟨below, frame, up⟩
    · rw [retain_of_none comparator keep snapshot hclimb]
      rfl
    · rcases hkeep : keep frame.entry.key frame.entry.value state with ⟨⟨stays, value⟩, state'⟩
      let cell := frame.entry.withValue value
      let passed := Path.pass below frame cell up
      let visited := snapshot.withTree (Tree.nil.under passed)
      have hlt : Path.effort passed < steps :=
        Nat.lt_of_lt_of_le (Nat.le_of_eq (Path.effort_pass hclimb cell)) (Nat.le_of_lt_succ hsteps)
      have hplace : Tree.nil.under passed = visited.layout.tree := rfl
      have hkeep' : keep (frame.map Cell.entry).entry.1 (frame.map Cell.entry).entry.2 state = _ :=
        hkeep
      rw [retain_of_some comparator keep snapshot hclimb hkeep]
      simp only [Option.map_some, hkeep', pass_outline, withTree_nil_under_outline]
      cases stays with
      | true => exact ih visited hplace hlt state'
      | false =>
        rcases hcut : visited.cut comparator frame.sibling ⟨.right, frame.color, cell, below⟩ up
          with ⟨⟨removed, place⟩, after⟩
        have hcut' : visited.outline.cut comparator (frame.map Cell.entry).sibling
            ⟨.right, (frame.map Cell.entry).color, ((frame.map Cell.entry).entry.1, value),
              below.map Cell.entry⟩ (up.map Cell.entry) =
              ((removed, place.map Cell.entry), after.outline) :=
          (cut_outline comparator visited _ _ up).trans (congrArg _ hcut)
        have hunder := nil_under_of_cut hcut
        have hrest := ih (after.release [removed.2]) hunder
          (Nat.lt_trans (effort_lt_of_cut hcut) hlt) state'
        simp only [visited, passed, cell] at hcut'
        simp only [hcut']
        exact hrest

theorem retain_outline (keep : K → V → StateM τ (Bool × V)) (state : τ) :
    snapshot.outline.retain comparator keep state =
      (snapshot.retain comparator keep (snapshot.layout.tree.spine .left []) state).map
        id outline := by
  have htree := Tree.nil_under_spine .left snapshot.layout.tree []
  have hsize : snapshot.outline.tree.size = snapshot.layout.tree.size :=
    Tree.size_map Cell.entry snapshot.layout.tree
  have heffort : Path.effort (snapshot.layout.tree.spine .left []) <
      (snapshot.layout.tree.size + 1) * (snapshot.layout.tree.size + 1) :=
    Path.effort_spine_lt (Nat.lt_succ_self _)
  rw [Outline.retain, spine_outline, hsize]
  exact retainWithin_outline comparator snapshot keep htree heffort state

/-- Unless storage is refused, an operation does the same without slots. -/
theorem perform_outline {operation : Operation τ K V}
    (h : ¬(snapshot.perform comparator operation).1.StorageRefused) :
    snapshot.outline.perform comparator operation =
      (snapshot.perform comparator operation).map operation.reply outline := by
  have hlist : snapshot.outline.tree.toList = snapshot.entries :=
    Tree.toList_map Cell.entry snapshot.layout.tree
  have hsize : snapshot.outline.tree.size = snapshot.layout.tree.size :=
    Tree.size_map Cell.entry snapshot.layout.tree
  cases operation with
  | insert key value policy =>
    have hstored : (snapshot.insert comparator key value policy).1 ≠ .error .allocationFailure :=
      fun hfailed => h (.inl (congrArg Answer.stored hfailed))
    rw [Outline.perform, insert_outline comparator key snapshot hstored]
    rfl
  | get key =>
    rw [Outline.perform, get_outline]
    rfl
  | update key change =>
    rw [Outline.perform, update_outline]
    rfl
  | contains key =>
    rw [Outline.perform, contains_outline]
    rfl
  | remove key =>
    rw [Outline.perform, remove_outline]
    rfl
  | outermost side =>
    rw [Outline.perform, outermost_outline]
    rfl
  | pop side =>
    rw [Outline.perform, pop_outline]
    rfl
  | clear =>
    rw [Outline.perform, clear_outline]
    rfl
  | length =>
    rw [Outline.perform, hsize]
    rfl
  | isEmpty =>
    rw [Outline.perform, hsize]
    rfl
  | height =>
    have hheight : snapshot.outline.tree.height = snapshot.layout.tree.height :=
      Tree.height_map Cell.entry snapshot.layout.tree
    rw [Outline.perform, hheight]
    rfl
  | capacity => rfl
  | entries =>
    rw [Outline.perform, hlist]
    rfl
  | iterate view steps =>
    rw [Outline.perform, hlist]
    rfl
  | traverse moves =>
    have hstart : Outline.Place.start snapshot.outline.tree =
        (Place.start snapshot.layout.tree).outline := by
      rw [Outline.Place.start, spine_outline]
      rfl
    rw [Outline.perform, hstart, moves_outline]
    rfl
  | retain keep state =>
    rw [Outline.perform, retain_outline]
    rfl
  | copy => rfl

/-- Perform an operation and look at what it shows. -/
def watch (operation : Operation τ K V) (snapshot : Snapshot σ K V) :
    Sight σ τ K V × Snapshot σ K V :=
  let (answer, after) := snapshot.perform comparator operation
  (after.outline.sight (operation.reply answer), after)

/-- An operation whose answer is shown to be refused was refused. -/
theorem refused_watch {operation : Operation τ K V}
    (h : (snapshot.perform comparator operation).1.StorageRefused) :
    (snapshot.watch comparator operation).1.Refused := by
  refine ⟨_, ?_, h⟩
  cases operation with
  | capacity => rcases h with h | h <;> cases h
  | _ => rfl

/-- As long as storage is not refused, there is the same to see without slots. -/
theorem watch_outline {operations : List (Operation τ K V)}
    (h : ∀ sight ∈ (snapshot.run (watch comparator) operations).1, ¬sight.Refused) :
    (snapshot.run (watch comparator) operations).1 =
      snapshot.outline.watch comparator operations := by
  induction operations generalizing snapshot with
  | nil => rfl
  | cons operation operations ih =>
    rw [run, List.forall_mem_cons] at h
    obtain ⟨hfirst, hrest⟩ := h
    have hperform := perform_outline comparator snapshot
      fun hrefused => hfirst (refused_watch comparator snapshot hrefused)
    rw [Outline.watch, hperform]
    exact congrArg (List.cons _) (ih _ hrest)

end Snapshot

namespace Engine

theorem Performs.watch (comparator : Comparator σ K) (operation : Operation τ K V)
    (before : Snapshot σ K V) :
    Performs (Engine.watch comparator operation) before (before.watch comparator operation).2
      (before.watch comparator operation).1 := by
  refine .bind (.operation comparator operation before)
    (.bind (.inspect fun _ h => h.toTree_eq_ok) ?_)
  exact fun tree h => ⟨tree, rfl, h⟩

/-- Two reachable trees of the same shape cannot be told apart, whatever slots their nodes lie
in, which slots are vacant and how many fit: as long as storage is not refused to either, every
sequence of operations shows the same on both, step by step, and the same as without slots: the
answers but for the capacity, the shape, what the comparator remembers and was asked, the
events, and the values released. -/
theorem slots_do_not_show {first second : LinkedTree K V} (hfirst : first.Reachable)
    (hsecond : second.Reachable) (hshape : first.toTree = second.toTree)
    (comparator : Comparator σ K) (memory : σ) (operations : List (Operation τ K V)) :
    ∃ shape sights sights' after after',
      first.toTree = .ok shape ∧
      run (watch comparator.recording) operations { tree := first, memory := { memory } } =
        .ok sights after ∧
      run (watch comparator.recording) operations { tree := second, memory := { memory } } =
        .ok sights' after' ∧
      ((∀ sight ∈ sights, ¬sight.Refused) →
        sights = Outline.watch comparator.recording operations
          { tree := shape, memory := { memory } }) ∧
      ((∀ sight ∈ sights, ¬sight.Refused) → (∀ sight ∈ sights', ¬sight.Refused) →
        sights = sights') := by
  obtain ⟨layout, hlaid⟩ := hfirst.exists_laidOut
  obtain ⟨layout', hlaid'⟩ := hsecond.exists_laidOut
  -- both start from the same tree without slots
  have hentries : Except.ok layout.tree.entries = Except.ok layout'.tree.entries :=
    hlaid.toTree_eq_ok.symm.trans (hshape.trans hlaid'.toTree_eq_ok)
  injection hentries with hentries
  let start : Context (Record σ K) K V := { tree := first, memory := { memory } }
  let start' : Context (Record σ K) K V := { tree := second, memory := { memory } }
  have houtline : (start'.snapshot layout').outline =
      { tree := layout.tree.entries, memory := { memory } } := by
    rw [hentries]
    rfl
  have hwatch := Performs.run (Performs.watch comparator.recording) operations
  obtain ⟨_, hrun, -⟩ := (hwatch (start.snapshot layout)).of_context hlaid
  obtain ⟨_, hrun', -⟩ := (hwatch (start'.snapshot layout')).of_context hlaid'
  refine ⟨_, _, _, _, _, hlaid.toTree_eq_ok, hrun, hrun', ?_, ?_⟩
  · exact Snapshot.watch_outline comparator.recording (start.snapshot layout)
  · intro hsights hsights'
    have hsame := Snapshot.watch_outline comparator.recording _ hsights
    have hsame' := Snapshot.watch_outline comparator.recording _ hsights'
    rw [houtline] at hsame'
    exact hsame.trans hsame'.symm

/-- Operations on a tree with a slot that was used twice, and on one without: the entries lie in
other slots, and yet every operation shows the same. -/
theorem slots_do_not_show_refilled :
    ∃ first second : LinkedTree Nat Nat,
      first.Reachable ∧ second.Reachable ∧ first.toTree = second.toTree ∧
      first.arena.bySlot = [some (7, 70), some (1, 10), some (5, 50)] ∧
      second.arena.bySlot = [some (5, 50), some (1, 10), some (7, 70)] ∧
      ∃ sights after after',
        run (watch (Comparator.ofOrder compare).recording)
          [.insert 6 60 .overwrite, .remove 5, .traverse [.next, .next, .remove], .capacity,
            (.clear : Operation Unit Nat Nat)]
          { tree := first, memory := { memory := () } } = .ok sights after ∧
        run (watch (Comparator.ofOrder compare).recording)
          [.insert 6 60 .overwrite, .remove 5, .traverse [.next, .next, .remove], .capacity,
            (.clear : Operation Unit Nat Nat)]
          { tree := second, memory := { memory := () } } = .ok sights after' ∧
        ∀ sight ∈ sights, ¬sight.Refused := by
  have hnew : Arena.withCapacity ⟨8, 24⟩ 0 = .ok (Arena.empty ⟨8, 24⟩ : Arena Nat Nat) := rfl
  -- removing the first key makes room for the last one
  obtain ⟨_, first, hbuilt, hfirst, hshape⟩ :=
    exists_reachable_run hnew (Comparator.ofOrder compare) ()
      [.insert 9 90 .overwrite, .insert 1 10 .overwrite, .insert 5 50 .overwrite, .remove 9,
        (.insert 7 70 .overwrite : Operation Unit Nat Nat)]
  obtain ⟨_, second, hbuilt', hsecond, hshape'⟩ :=
    exists_reachable_run hnew (Comparator.ofOrder compare) ()
      [.insert 5 50 .overwrite, .insert 1 10 .overwrite,
        (.insert 7 70 .overwrite : Operation Unit Nat Nat)]
  have hsame : first.tree.toTree = second.tree.toTree :=
    hshape.trans (Eq.trans rfl hshape'.symm)
  obtain ⟨_, sights, sights', after, after', -, hrun, hrun', -, hsights⟩ :=
    slots_do_not_show hfirst hsecond hsame (Comparator.ofOrder compare) ()
      [.insert 6 60 .overwrite, .remove 5, .traverse [.next, .next, .remove], .capacity,
        (.clear : Operation Unit Nat Nat)]
  -- storage is refused to neither
  have hnever := holds_of_ok hrun (fun sights _ => ∀ sight ∈ sights, ¬sight.Refused)
    (holds_of_ok hbuilt (fun _ first => Ends (run (watch _) _) ⟨first.tree, _, _, _⟩ _)
      (by decide +kernel))
  have hnever' := holds_of_ok hrun' (fun sights _ => ∀ sight ∈ sights, ¬sight.Refused)
    (holds_of_ok hbuilt' (fun _ second => Ends (run (watch _) _) ⟨second.tree, _, _, _⟩ _)
      (by decide +kernel))
  obtain rfl := hsights hnever hnever'
  refine ⟨first.tree, second.tree, hfirst, hsecond, hsame, ?_, ?_, sights, after, after', hrun,
    hrun', hnever⟩
  · exact holds_of_ok hbuilt (fun _ first => first.tree.arena.bySlot = _) (by decide +kernel)
  · exact holds_of_ok hbuilt' (fun _ second => second.tree.arena.bySlot = _) (by decide +kernel)

end Engine

end RedBlack
