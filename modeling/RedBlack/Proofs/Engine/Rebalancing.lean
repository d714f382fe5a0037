import RedBlack.Proofs.Engine.Reachable
import RedBlack.Proofs.Linked.Determination
import RedBlack.Proofs.Linked.Rebalancing

/-!
# Rebalancing Work of One Operation

What a container reports while it stores one entry or takes one out, on every reachable tree and
whatever its comparator answers (`Engine.rebalancing_courses`). In a tree of height `h`, storing
an entry recolours at most `h / 2` times and then rotates at most twice; taking one out pushes a
shortage up fewer than `h` times and rotates at most three times. The rotations that are reported
are those that were made (`LinkedTree.InsertsBy`, `LinkedTree.ErasesBy`).
-/

namespace RedBlack

open Event (rotations)
open RedBlack.Tree (Frame Path)

variable {σ K V : Type}

/-! ## Courses of operations -/

/-- How storing an entry in a tree of some height goes, by what was found under its key before and
by the answer. -/
inductive Context.Puts (height : Nat) (before after : Context σ K V) :
    Link → Except Error (Option V) → Prop
  /-- An equal key is stored, so nothing is repaired. -/
  | equal (id : SlotId) (answer : Except Error (Option V)) :
      after.trace = before.trace → Puts height before after (some id) answer
  /-- Storage was refused, so nothing is repaired either. -/
  | refused (cause : Shortage) :
      after.tree = before.tree → after.trace = before.trace ++ [Event.refused cause 1] →
        Puts height before after none (.error .allocationFailure)
  /-- A node was created, and as many rotations made as reported. -/
  | created (events : List Event) :
      after.trace = before.trace ++ events → Event.AfterRecolorings height events →
        rotations events ≤ 2 → LinkedTree.InsertsBy (rotations events) before.tree after.tree →
          Puts height before after none (.ok none)

/-- How taking an entry out of a tree of some height goes, by the answer; what is reported `later`
is no part of the repair. -/
inductive Context.Takes (height : Nat) (before after : Context σ K V) (later : List Event) :
    Except Error (K × V) → Prop
  /-- There was no such entry. -/
  | nothing (error : Error) :
      after.tree = before.tree → after.trace = before.trace →
        Takes height before after later (.error error)
  /-- A node was taken out, and as many rotations made as reported. -/
  | one (entry : K × V) (events : List Event) :
      after.trace = before.trace ++ events ++ later → Event.AfterPushes height events →
        rotations events ≤ 3 → LinkedTree.ErasesBy (rotations events) before.tree after.tree →
          Takes height before after later (.ok entry)

/-! ## On snapshots -/

section

variable {before after : Snapshot σ K V} {context : Context σ K V} {new : LinkedTree K V}
  {color : Color} {left right : Tree (Cell K V)} {cell : Cell K V} {path : Path (Cell K V)}
  (h : context.tree.LaidOut before.layout) (htrace : context.trace = before.trace)

include h htrace

/-- Storing an entry in an empty place. -/
theorem Context.puts_insertAt (hgap : Tree.nil.under path = before.layout.tree) (key : K)
    (value : V) (hnew : new.LaidOut (before.insertAt key path value).2.layout) :
    Puts before.layout.tree.height context ((before.insertAt key path value).2.around new) none
      (before.insertAt key path value).1 := by
  obtain ⟨other, hinsert, hother⟩ := LinkedTree.Reforms.insertAt hgap
    (fun _ => Path.side_of_mem_head?) key value context.tree h
  simp only [Snapshot.insertAt, Layout.insert] at hinsert hnew hother ⊢
  cases hallot : Arena.allot before.layout.tree.size before.layout.vacated
      before.layout.capacity before.layout.room with
  | error cause =>
    simp only [hallot] at hnew ⊢
    refine .refused cause (hnew.unique h) ?_
    rw [htrace]
    rfl
  | ok slot =>
    obtain ⟨id, vacated, capacity⟩ := slot
    simp only [hallot] at hinsert hnew hother ⊢
    have hcourse := Tree.afterRecolorings_repairRed
      (Tree.node .red .nil (⟨id, key, value⟩ : Cell K V) .nil) path
    rw [hgap] at hcourse
    cases hnew.unique hother
    refine .created _ ?_ hcourse hcourse.rotations_le (LinkedTree.insertsBy_of_insertAt hinsert)
    rw [htrace]
    rfl

/-- Storing an entry, after the descent for its key. -/
theorem Context.puts_insert (comparator : Comparator σ K) (key : K) (value : V)
    (policy : DuplicatePolicy)
    (hnew : new.LaidOut (before.insert comparator key value policy).2.layout) :
    Puts before.layout.tree.height context
      ((before.insert comparator key value policy).2.around new)
      (before.seek comparator key).1.1.link (before.insert comparator key value policy).1 := by
  rw [Snapshot.insert] at hnew ⊢
  rcases hseek : before.seek comparator key with
    ⟨⟨_ | ⟨color, left, cell, right⟩, path⟩, searched⟩
  all_goals
    -- the descent reports nothing and leaves the tree as it is
    obtain ⟨htree, hlayout⟩ := Snapshot.of_seek_eq hseek
    have hsearched : before.trace = searched.trace := congrArg (fun place => place.2.trace) hseek
    simp only [hseek] at hnew ⊢
  · rw [← hlayout] at h ⊢
    exact puts_insertAt h (htrace.trans hsearched) htree key value hnew
  · refine .equal cell.slot _ ?_
    cases policy with
    | overwrite => exact (htrace.trans hsearched).symm
    | reject => exact (htrace.trans hsearched).symm

/-- Taking a node out, whatever is reported later. -/
theorem Context.takes_erase
    (htree : (Tree.node color left cell right).under path = before.layout.tree)
    {later : List Event}
    (hlayout : after.layout = (before.erase color left cell right path).2.layout)
    (hlater : after.trace = (before.erase color left cell right path).2.trace ++ later)
    (hnew : new.LaidOut after.layout) :
    Takes before.layout.tree.height context (after.around new) later
      (.ok (before.erase color left cell right path).1) := by
  have hcourse := Tree.afterPushes_erase color left cell right path
  rw [htree] at hcourse
  obtain ⟨other, herase, hother⟩ := LinkedTree.Reforms.erase htree context.tree h
  rw [hlayout] at hnew
  cases hnew.unique hother
  refine .one _ _ (hlater.trans ?_) hcourse hcourse.rotations_le
    (LinkedTree.erasesBy_of_erase herase)
  rw [htrace]
  rfl

/-- Removing the entry stored under a key. -/
theorem Context.takes_remove (comparator : Comparator σ K) (key : K)
    (hnew : new.LaidOut (before.remove comparator key).2.layout) :
    Takes before.layout.tree.height context ((before.remove comparator key).2.around new) []
      (before.remove comparator key).1 := by
  rw [Snapshot.remove] at hnew ⊢
  rcases hseek : before.seek comparator key with
    ⟨⟨_ | ⟨color, left, cell, right⟩, path⟩, searched⟩
  all_goals
    obtain ⟨htree, hlayout⟩ := Snapshot.of_seek_eq hseek
    have hsearched : before.trace = searched.trace := congrArg (fun place => place.2.trace) hseek
    simp only [hseek] at hnew ⊢
    rw [← hlayout] at h ⊢
  · exact .nothing _ (hnew.unique h) (htrace.trans hsearched).symm
  · exact takes_erase h (htrace.trans hsearched) htree rfl Array.appendList_nil.symm hnew

/-- Removing the outermost entry on one side. -/
theorem Context.takes_pop (side : Side) (hnew : new.LaidOut (before.pop side).2.layout) :
    Takes before.layout.tree.height context ((before.pop side).2.around new) []
      (before.pop side).1 := by
  rw [Snapshot.pop] at hnew ⊢
  rcases hspine : before.layout.tree.spine side [] with _ | ⟨frame, path⟩
  all_goals simp only [hspine] at hnew ⊢
  · exact .nothing _ (hnew.unique h) htrace.symm
  · have htree : Tree.nil.under (frame :: path) = before.layout.tree := by
      rw [← hspine, Tree.nil_under_spine, Tree.under_nil]
    rw [Tree.under_cons, Frame.close_eq_node] at htree
    exact takes_erase h htrace htree rfl Array.appendList_nil.symm hnew

/-- Removing the entry before a place, which reports how the cursor goes on. -/
theorem Context.takes_removeAt (comparator : Comparator σ K) {place : Place K V}
    (hplace : Tree.nil.under place.path = before.layout.tree)
    (hnew : new.LaidOut (before.removeAt comparator place).2.2.layout) :
    ∃ depth, Takes before.layout.tree.height context
      ((before.removeAt comparator place).2.2.around new) [.resynchronized depth]
      (before.removeAt comparator place).1 := by
  rw [Snapshot.removeAt] at hnew ⊢
  rcases hlast : place.last? with _ | ⟨below, frame, up⟩
  all_goals simp only [hlast] at hnew ⊢
  · exact ⟨0, .nothing _ (hnew.unique h) htrace.symm⟩
  · have htree := (Path.of_climb_eq_some (Place.climb_of_last? hlast)).2.symm.trans hplace
    rw [Frame.close_eq_node] at htree
    exact ⟨_, takes_erase h htrace htree rfl rfl hnew⟩

end

namespace Engine

/-- In every reachable tree, whatever the comparator answers: storing an entry under a new key
recolours at most half as often as the tree has levels, and then rotates at most twice, or not at
all; under an equal key nothing is repaired. Taking an entry out, by its key, by its position
or with a cursor wherever it stands, pushes a shortage up fewer times than the tree has levels and
rotates at most three times. As many rotations are made as are reported. -/
theorem rebalancing_courses {context : Context σ K V} (h : context.tree.Reachable)
    (comparator : Comparator σ K) :
    ∃ height, context.tree.height = .ok height ∧
      (∀ key value policy, ∃ found searched answer after,
        locate comparator key context = .ok found searched ∧
          insert comparator key value policy context = .ok answer after ∧
          context.Puts height after found answer) ∧
      (∀ key, ∃ answer after, remove comparator key context = .ok answer after ∧
        context.Takes height after [] answer) ∧
      (∀ side, ∃ answer after, pop side context = .ok answer after ∧
        context.Takes height after [] answer) ∧
      (∀ moves, ∃ outcomes cursor between current answer resumed after depth,
        (Cursor.start >>= Cursor.moves comparator moves) context =
            .ok (outcomes, cursor) between ∧
          between.tree.height = .ok current ∧
          cursor.remove comparator between = .ok (answer, resumed) after ∧
          between.Takes current after [.resynchronized depth] answer) := by
  obtain ⟨layout, hlaid⟩ := h.exists_laidOut
  let before := context.snapshot layout
  refine ⟨layout.tree.height, hlaid.height_eq_ok, ?_, ?_, ?_, ?_⟩
  · intro key value policy
    obtain ⟨_, hlocate, -⟩ := (Performs.locate comparator key before).of_context hlaid
    obtain ⟨_, hinsert, hnew⟩ :=
      (Performs.insert comparator key value policy before).of_context hlaid
    exact ⟨_, _, _, _, hlocate, hinsert,
      Context.puts_insert hlaid rfl comparator key value policy hnew⟩
  · intro key
    obtain ⟨_, hremove, hnew⟩ := (Performs.remove comparator key before).of_context hlaid
    exact ⟨_, _, hremove, Context.takes_remove hlaid rfl comparator key hnew⟩
  · intro side
    obtain ⟨_, hpop, hnew⟩ := (Performs.pop side before).of_context hlaid
    exact ⟨_, _, hpop, Context.takes_pop hlaid rfl side hnew⟩
  · intro moves
    have hstart := Place.nil_under_start layout.tree
    have hmoves : Performs (Cursor.start >>= Cursor.moves comparator moves) before _ _ :=
      (Performs.start before).bind (.moves comparator hstart moves)
    obtain ⟨tree, hbetween, hmid⟩ := hmoves.of_context hlaid
    have hplace : _ = (before.moves comparator (.start layout.tree) moves).2.2.layout.tree :=
      Snapshot.nil_under_moves comparator hstart moves
    obtain ⟨new, hremove, hnew⟩ := Performs.removeAt comparator hplace tree hmid
    let reached := (before.moves comparator (.start layout.tree) moves).2.2.around tree
    have hreached : reached.tree.LaidOut _ := hmid
    obtain ⟨depth, htakes⟩ := Context.takes_removeAt hreached rfl comparator hplace hnew
    exact ⟨_, _, _, _, _, _, _, depth, hbetween, hmid.height_eq_ok, hremove, htakes⟩

/-- The work of the next operation after a run with a comparator that changes its mind: one more key
is stored with one recolouring and no rotation, and the last entry is removed with one rotation. -/
theorem rebalancing_courses_flipping :
    ∃ answers context,
      run (Operation.perform (Comparator.flipping 3 compare))
        [.insert 1 10 .overwrite, .insert 2 20 .reject, .insert 3 30 .overwrite,
          .insert 2 40 .reject, .insert 5 50 .overwrite, .remove 2, .insert 6 60 .reject,
          (.insert 4 70 .reject : Operation Unit Nat Nat)]
        (.ofArena (Arena.empty ⟨8, 24⟩ : Arena Nat Nat) 0) = .ok answers context ∧
      context.tree.height = .ok 3 ∧
      (∃ searched after,
        locate (Comparator.flipping 3 compare) 7 context = .ok none searched ∧
          insert (Comparator.flipping 3 compare) 7 80 .reject context = .ok (.ok none) after ∧
          context.Puts 3 after none (.ok none) ∧
          after.trace = context.trace ++ [Event.recolored] ∧
          Event.AfterRecolorings 3 [.recolored] ∧
          LinkedTree.InsertsBy 0 context.tree after.tree) ∧
      ∃ after, pop .right context = .ok (.ok (3, 30)) after ∧
        context.Takes 3 after [] (.ok (3, 30)) ∧
        after.trace = context.trace ++ [Event.farNephew] ∧
        Event.AfterPushes 3 [.farNephew] ∧
        LinkedTree.ErasesBy 1 context.tree after.tree := by
  have hnew : Arena.withCapacity ⟨8, 24⟩ 0 = .ok (Arena.empty ⟨8, 24⟩ : Arena Nat Nat) := rfl
  obtain ⟨_, context, hrun, hreachable, -⟩ :=
    exists_reachable_run hnew (Comparator.flipping 3 compare) 0
      [.insert 1 10 .overwrite, .insert 2 20 .reject, .insert 3 30 .overwrite,
        .insert 2 40 .reject, .insert 5 50 .overwrite, .remove 2, .insert 6 60 .reject,
        (.insert 4 70 .reject : Operation Unit Nat Nat)]
  obtain ⟨height, hheight, hputs, -, hpops, -⟩ :=
    rebalancing_courses hreachable (Comparator.flipping 3 compare)
  obtain rfl : height = 3 := Except.ok.inj (hheight.symm.trans
    (holds_of_ok hrun (fun _ context => context.tree.height = .ok 3) (by decide +kernel)))
  refine ⟨_, context, hrun, hheight, ?_, ?_⟩
  · obtain ⟨found, searched, answer, after, hlocate, hinsert, hcourse⟩ := hputs 7 80 .reject
    obtain rfl : found = none :=
      holds_after hrun hlocate (fun _ found _ => found = none) (by decide +kernel)
    obtain rfl : answer = .ok none :=
      holds_after hrun hinsert (fun _ answer _ => answer = .ok none) (by decide +kernel)
    have htrace := holds_after hrun hinsert
      (fun before _ after => after.trace = before.trace ++ [Event.recolored]) (by decide +kernel)
    refine ⟨searched, after, hlocate, hinsert, hcourse, htrace, ?_⟩
    obtain - | - | ⟨events, hevents, hrecolors, -, hinserts⟩ := hcourse
    obtain rfl : events = [.recolored] := by
      simpa using congrArg Array.toList (hevents.symm.trans htrace)
    exact ⟨hrecolors, hinserts⟩
  · obtain ⟨answer, after, hpop, hcourse⟩ := hpops .right
    obtain rfl : answer = .ok (3, 30) :=
      holds_after hrun hpop (fun _ answer _ => answer = .ok (3, 30)) (by decide +kernel)
    have htrace := holds_after hrun hpop
      (fun before _ after => after.trace = before.trace ++ [Event.farNephew]) (by decide +kernel)
    refine ⟨after, hpop, hcourse, htrace, ?_⟩
    obtain - | ⟨_, events, hevents, hpushes, -, herases⟩ := hcourse
    obtain rfl : events = [.farNephew] := by
      simpa using congrArg Array.toList (hevents.symm.trans htrace)
    exact ⟨hpushes, herases⟩

end Engine

end RedBlack
