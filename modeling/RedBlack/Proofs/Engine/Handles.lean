import RedBlack.Proofs.Engine.Reachable
import RedBlack.Proofs.Linked.Determination

/-!
# Stable Handles

The slot of a node is a handle that stays good as long as the node is stored: it keeps its key and
its value while other entries come and go (`Engine.handles_of_operations`). Storing an entry
fills one slot (`Arena.Fills`) and taking one out vacates its slot (`Arena.Vacates`); whatever
else is written on the way are links and colours. In particular a node with two children is taken
out by moving its successor, and not by copying the entry of the successor.

Both are read off the layouts before and after: these differ by one cell and one vacant slot
(`LinkedTree.LaidOut.fills`), and what a slot holds, up to links and colours, is determined by the
cell in it or by its place on the free list.
-/

namespace RedBlack

open RedBlack.Tree (Frame Path)

variable {σ K V : Type}

/-! ## Filling and vacating a slot -/

namespace Arena

/-- One slot is filled with an entry. Every other slot holds the same entry as before, or is vacant
as before. -/
structure Fills (before after : Arena K V) (id : SlotId) (entry : K × V) : Prop where
  /-- The slot held no node. -/
  free : before.node? id = none
  /-- Now it holds the entry. -/
  filled : ∃ node, after.node? id = some node ∧ node.entry = entry
  /-- In the other slots, nothing but links and colours has changed. -/
  others : ∀ other, other ≠ id →
    after.slots[other]?.map Slot.bare = before.slots[other]?.map Slot.bare

/-- One slot that holds an entry is vacated. Every other slot holds the same entry as before, or is
vacant as before. -/
structure Vacates (before after : Arena K V) (id : SlotId) (entry : K × V) : Prop where
  /-- The slot held the entry. -/
  stored : ∃ node, before.node? id = some node ∧ node.entry = entry
  /-- Now it is vacant, in front of the slot that was vacated before it. -/
  vacant : after.slots[id]? = some (.vacant before.lastVacated)
  /-- In the other slots, nothing but links and colours has changed. -/
  others : ∀ other, other ≠ id →
    after.slots[other]?.map Slot.bare = before.slots[other]?.map Slot.bare

/-- A slot that is listed neither as occupied nor as vacant does not exist. -/
theorem Holds.slots_eq_none {arena : Arena K V} {occupied vacated : List SlotId} {id : SlotId}
    (h : arena.Holds occupied vacated) (hoccupied : id ∉ occupied) (hvacated : id ∉ vacated) :
    arena.slots[id]? = none := by
  refine Array.getElem?_eq_none (Nat.le_of_not_lt fun hlt => ?_)
  have hmem := h.partition.mem_iff.2 (List.mem_range.2 hlt)
  rcases List.mem_append.1 hmem with hmem | hmem
  · exact hoccupied hmem
  · exact hvacated hmem

end Arena

/-! ## Layouts that differ by one cell -/

namespace LinkedTree.LaidOut

variable {linked after : LinkedTree K V} {layout grown : Layout K V} {cell : Cell K V}

/-- Between two layouts of which one has a cell more, and its slot is vacant in the other one or
new, only this slot is filled. -/
theorem fills (h : linked.LaidOut layout) (h' : after.LaidOut grown)
    (hcells : grown.tree.toList.Perm (cell :: layout.tree.toList))
    (hvacated : layout.vacated = cell.slot :: grown.vacated ∨
      layout.vacated = [] ∧ grown.vacated = []) :
    linked.arena.Fills after.arena cell.slot cell.entry := by
  have hslots : (cell.slot :: layout.tree.slots).Perm grown.tree.slots :=
    (hcells.map Cell.slot).symm
  have hstorage := h'.storage.perm hslots
  have hmem : ∀ stored ∈ layout.tree.toList, stored ∈ grown.tree.toList := fun stored hstored =>
    hcells.mem_iff.2 (List.mem_cons_of_mem _ hstored)
  refine ⟨(h.storage.fresh hstorage).1,
    h'.shows.2.exists_entry_eq (hcells.mem_iff.2 List.mem_cons_self), fun other hother => ?_⟩
  by_cases hoccupied : other ∈ layout.tree.slots
  · -- both trees have the same cell in this slot
    obtain ⟨stored, hstored, rfl⟩ := List.mem_map.1 hoccupied
    obtain ⟨node, hnode, hentry⟩ := h.shows.2.exists_entry_eq hstored
    obtain ⟨node', hnode', hentry'⟩ := h'.shows.2.exists_entry_eq (hmem stored hstored)
    rw [Arena.slots_eq_of_node? hnode, Arena.slots_eq_of_node? hnode']
    exact congrArg some (Slot.bare_occupied_congr (hentry'.trans hentry.symm))
  · have hoccupied' : other ∉ cell.slot :: layout.tree.slots :=
      List.not_mem_cons_of_ne_of_not_mem hother hoccupied
    rcases hvacated with hreused | ⟨hnone, hnone'⟩
    · by_cases hfree : other ∈ grown.vacated
      · -- behind the slot that was filled, the free list is as it was
        have hchain := h.storage.chain
        rw [hreused] at hchain
        obtain ⟨-, next, -, hrest⟩ := hchain
        rw [(hrest.unique h'.storage.chain).2 other hfree]
      · have hfree' : other ∉ layout.vacated := by
          rw [hreused]
          exact List.not_mem_cons_of_ne_of_not_mem hother hfree
        rw [h.storage.slots_eq_none hoccupied hfree', hstorage.slots_eq_none hoccupied' hfree]
    · rw [h.storage.slots_eq_none hoccupied (hnone ▸ List.not_mem_nil),
        hstorage.slots_eq_none hoccupied' (hnone' ▸ List.not_mem_nil)]

/-- Between two layouts of which one has a cell less, and its slot was vacated last in it, only this
slot is vacated. -/
theorem vacates (h : linked.LaidOut grown) (h' : after.LaidOut layout)
    (hcells : grown.tree.toList.Perm (cell :: layout.tree.toList))
    (hvacated : layout.vacated = cell.slot :: grown.vacated) :
    linked.arena.Vacates after.arena cell.slot cell.entry := by
  have hfills := h'.fills h hcells (.inl hvacated)
  have hchain := h'.storage.chain
  rw [hvacated] at hchain
  obtain ⟨-, next, hslot, hrest⟩ := hchain
  refine ⟨hfills.filled, ?_, fun other hother => (hfills.others other hother).symm⟩
  rw [hslot, (hrest.unique h.storage.chain).1]

end LinkedTree.LaidOut

/-! ## Operations -/

/-- What storing an entry does to the slots, by the node that was found under its key and by the
answer. -/
inductive Context.StoresAt (before after : Context σ K V) (key : K) (value : V) :
    DuplicatePolicy → Link → Except Error (Option V) → Prop
  /-- A node was created. -/
  | created (policy : DuplicatePolicy) (id : SlotId) :
      before.tree.arena.Fills after.tree.arena id (key, value) →
        StoresAt before after key value policy none (.ok none)
  /-- Storage was refused, and nothing has changed. -/
  | refused (policy : DuplicatePolicy) :
      after.tree = before.tree →
        StoresAt before after key value policy none (.error .allocationFailure)
  /-- An equal key was found, and nothing but the value under it has changed. -/
  | overwritten (id : SlotId) (node : Node K V) :
      before.tree.arena.node? id = some node →
        after.tree = before.tree.write id (node.withValue value) →
          StoresAt before after key value .overwrite (some id) (.ok (some node.value))
  /-- An equal key was found, and nothing has changed. -/
  | rejected (id : SlotId) :
      after.tree = before.tree →
        StoresAt before after key value .reject (some id) (.error .keyAlreadyExists)

/-- What taking an entry out does to the slots, by the node that is to be taken out and by the
answer. -/
inductive Context.TakesFrom (before after : Context σ K V) :
    Link → Except Error (K × V) → Prop
  /-- There was no such node, and nothing has changed. -/
  | nothing (error : Error) :
      after.tree = before.tree → TakesFrom before after none (.error error)
  /-- The slot of the node was vacated, and the answer is what it held. -/
  | one (id : SlotId) (entry : K × V) :
      before.tree.arena.Vacates after.tree.arena id entry →
        TakesFrom before after (some id) (.ok entry)

section

variable {before after : Snapshot σ K V} {context : Context σ K V} {new : LinkedTree K V}
  {color : Color} {left right : Tree (Cell K V)} {cell : Cell K V} {path : Path (Cell K V)}
  (h : context.tree.LaidOut before.layout)

include h

/-- Storing an entry in an empty place. -/
theorem Context.storesAt_insertAt (hgap : Tree.nil.under path = before.layout.tree) (key : K)
    (value : V) (policy : DuplicatePolicy)
    (hnew : new.LaidOut (before.insertAt key path value).2.layout) :
    StoresAt context ((before.insertAt key path value).2.around new) key value policy none
      (before.insertAt key path value).1 := by
  simp only [Snapshot.insertAt, Layout.insert] at hnew ⊢
  rcases hallot : Arena.allot before.layout.tree.size before.layout.vacated
      before.layout.capacity before.layout.room with cause | ⟨id, vacated, capacity⟩
  · simp only [hallot] at hnew ⊢
    exact .refused policy (hnew.unique h)
  · simp only [hallot] at hnew ⊢
    -- the repair moves cells about and adds none, so the new tree has just one cell more
    have hcells := Tree.toList_repairRed_leaf_perm .red (⟨id, key, value⟩ : Cell K V) path
    rw [hgap] at hcells
    have hvacated : before.layout.vacated = id :: vacated ∨
        before.layout.vacated = [] ∧ vacated = [] :=
      (Arena.of_allot_eq_ok hallot).imp_right fun hnone => ⟨hnone.1, hnone.2.1⟩
    exact .created policy id (h.fills hnew hcells hvacated)

/-- Replacing the value under an equal key writes this value and nothing else. -/
theorem Context.eq_write_of_replace {value : V}
    (htree : (Tree.node color left cell right).under path = before.layout.tree)
    (hnew : new.LaidOut (before.withTree
      ((Tree.node color left (cell.withValue value) right).under path)).layout) :
    ∃ node, context.tree.arena.node? cell.slot = some node ∧ node.value = cell.value ∧
      new = context.tree.write cell.slot (node.withValue value) := by
  -- the value is written through the frame of the node around its left subtree
  have hframe : left.under (⟨.left, color, cell, right⟩ :: path) = before.layout.tree := htree
  have hshows := h.shows
  rw [← hframe] at hshows
  obtain ⟨⟨hnode, -⟩, -⟩ := LinkedTree.shows_under_iff.1 hshows
  obtain ⟨other, hmodify, hother⟩ :=
    LinkedTree.Reforms.modifyValue hframe (fun _ => value) context.tree h
  refine ⟨_, hnode, rfl, ?_⟩
  cases (LinkedTree.modifyNode_of_node? hnode _).symm.trans hmodify
  exact hnew.unique hother

/-- Storing an entry, after the descent for its key. -/
theorem Context.storesAt_insert (comparator : Comparator σ K) (key : K) (value : V)
    (policy : DuplicatePolicy)
    (hnew : new.LaidOut (before.insert comparator key value policy).2.layout) :
    StoresAt context ((before.insert comparator key value policy).2.around new) key value policy
      (before.seek comparator key).1.1.link (before.insert comparator key value policy).1 := by
  rw [Snapshot.insert] at hnew ⊢
  rcases hseek : before.seek comparator key with
    ⟨⟨_ | ⟨color, left, cell, right⟩, path⟩, searched⟩
  all_goals
    obtain ⟨htree, hlayout⟩ := Snapshot.of_seek_eq hseek
    simp only [hseek] at hnew ⊢
    rw [← hlayout] at h
  · exact storesAt_insertAt h htree key value policy hnew
  cases policy with
  | overwrite =>
    obtain ⟨node, hnode, hvalue, hwrite⟩ := eq_write_of_replace h htree hnew
    rw [← hvalue]
    exact .overwritten cell.slot node hnode hwrite
  | reject => exact .rejected cell.slot (hnew.unique h)

/-- Taking a node out. -/
theorem Context.vacates_erase
    (htree : (Tree.node color left cell right).under path = before.layout.tree)
    (hlayout : after.layout = (before.erase color left cell right path).2.layout)
    (hnew : new.LaidOut after.layout) :
    context.tree.arena.Vacates new.arena cell.slot cell.entry := by
  rw [hlayout] at hnew
  -- a successor that takes the place of the node comes with its own slot
  have hcells := Tree.toList_erase_perm color left cell right path
  rw [htree] at hcells
  exact h.vacates hnew hcells rfl

/-- Removing the entry stored under a key. -/
theorem Context.takesFrom_remove (comparator : Comparator σ K) (key : K)
    (hnew : new.LaidOut (before.remove comparator key).2.layout) :
    TakesFrom context ((before.remove comparator key).2.around new)
      (before.seek comparator key).1.1.link (before.remove comparator key).1 := by
  rw [Snapshot.remove] at hnew ⊢
  rcases hseek : before.seek comparator key with
    ⟨⟨_ | ⟨color, left, cell, right⟩, path⟩, searched⟩
  all_goals
    obtain ⟨htree, hlayout⟩ := Snapshot.of_seek_eq hseek
    simp only [hseek] at hnew ⊢
    rw [← hlayout] at h
  · exact .nothing _ (hnew.unique h)
  · exact .one cell.slot _ (vacates_erase h htree rfl hnew)

/-- Removing the outermost entry on one side. -/
theorem Context.takesFrom_pop (side : Side) (hnew : new.LaidOut (before.pop side).2.layout) :
    TakesFrom context ((before.pop side).2.around new)
      ((before.layout.tree.spine side []).head?.map fun frame => frame.entry.slot)
      (before.pop side).1 := by
  rw [Snapshot.pop] at hnew ⊢
  rcases hspine : before.layout.tree.spine side [] with _ | ⟨frame, path⟩
  all_goals simp only [hspine] at hnew ⊢
  · exact .nothing _ (hnew.unique h)
  · have htree : Tree.nil.under (frame :: path) = before.layout.tree := by
      rw [← hspine, Tree.nil_under_spine, Tree.under_nil]
    rw [Tree.under_cons, Frame.close_eq_node] at htree
    exact .one frame.entry.slot _ (vacates_erase h htree rfl hnew)

/-- Removing the entry that a cursor yielded last. -/
theorem Context.takesFrom_removeAt (comparator : Comparator σ K) {place : Place K V}
    (hplace : Tree.nil.under place.path = before.layout.tree)
    (hnew : new.LaidOut (before.removeAt comparator place).2.2.layout) :
    TakesFrom context ((before.removeAt comparator place).2.2.around new) place.cursor.yielded
      (before.removeAt comparator place).1 := by
  rw [Place.yielded_cursor]
  rw [Snapshot.removeAt] at hnew ⊢
  rcases hlast : place.last? with _ | ⟨below, frame, up⟩
  all_goals simp only [hlast] at hnew ⊢
  · exact .nothing _ (hnew.unique h)
  · have htree := (Path.of_climb_eq_some (Place.climb_of_last? hlast)).2.symm.trans hplace
    rw [Frame.close_eq_node] at htree
    exact .one frame.entry.slot _ (vacates_erase h htree rfl hnew)

end

namespace Engine

/-- In every reachable tree, whatever the comparator answers, a slot is a handle of its entry.
Storing an entry under a new key fills one slot; under an equal key at most the value in the slot
of that key changes. Taking an entry out, by its key, by its position or with a cursor wherever it
stands, vacates the slot of this entry. All other slots keep their keys and values. -/
theorem handles_of_operations {context : Context σ K V} (h : context.tree.Reachable)
    (comparator : Comparator σ K) :
    (∀ key value policy, ∃ found searched answer after,
      locate comparator key context = .ok found searched ∧
        insert comparator key value policy context = .ok answer after ∧
        context.StoresAt after key value policy found answer) ∧
    (∀ key, ∃ found searched answer after,
      locate comparator key context = .ok found searched ∧
        remove comparator key context = .ok answer after ∧
        context.TakesFrom after found answer) ∧
    (∀ side, ∃ found answer after,
      context.tree.outermost? side = .ok found ∧
        pop side context = .ok answer after ∧
        context.TakesFrom after found answer) ∧
    (∀ moves, ∃ outcomes cursor between answer resumed after,
      (Cursor.start >>= Cursor.moves comparator moves) context =
          .ok (outcomes, cursor) between ∧
        cursor.remove comparator between = .ok (answer, resumed) after ∧
        between.TakesFrom after cursor.yielded answer) := by
  obtain ⟨layout, hlaid⟩ := h.exists_laidOut
  let before := context.snapshot layout
  refine ⟨?_, ?_, ?_, ?_⟩
  · intro key value policy
    obtain ⟨_, hlocate, -⟩ := (Performs.locate comparator key before).of_context hlaid
    obtain ⟨_, hinsert, hnew⟩ :=
      (Performs.insert comparator key value policy before).of_context hlaid
    exact ⟨_, _, _, _, hlocate, hinsert,
      Context.storesAt_insert hlaid comparator key value policy hnew⟩
  · intro key
    obtain ⟨_, hlocate, -⟩ := (Performs.locate comparator key before).of_context hlaid
    obtain ⟨_, hremove, hnew⟩ := (Performs.remove comparator key before).of_context hlaid
    exact ⟨_, _, _, _, hlocate, hremove, Context.takesFrom_remove hlaid comparator key hnew⟩
  · intro side
    obtain ⟨_, hpop, hnew⟩ := (Performs.pop side before).of_context hlaid
    exact ⟨_, _, _, hlaid.outermost?_eq_ok side, hpop, Context.takesFrom_pop hlaid side hnew⟩
  · intro moves
    obtain ⟨_, place, between, reached, hbetween, hmid, hplace⟩ :=
      exists_place hlaid comparator moves
    have hremoves : Performs (place.cursor.remove comparator) (between.snapshot reached) _ _ :=
      .removeAt comparator hplace
    obtain ⟨_, hremove, hnew⟩ := hremoves.of_context hmid
    exact ⟨_, _, _, _, _, _, hbetween, hremove,
      Context.takesFrom_removeAt hmid comparator hplace hnew⟩

/-- The handles after a run with a comparator that changes its mind: the next key goes into the slot
that a removed one has left, and an entry is taken out of its slot by its key or with a cursor. -/
theorem handles_of_operations_flipping :
    ∃ answers context,
      run (Operation.perform (Comparator.flipping 3 compare))
        [.insert 1 10 .overwrite, .insert 2 20 .reject, .insert 3 30 .overwrite,
          .insert 2 40 .reject, .insert 5 50 .overwrite, (.remove 2 : Operation Unit Nat Nat)]
        (.ofArena (Arena.empty ⟨8, 24⟩ : Arena Nat Nat) 0) = .ok answers context ∧
      context.tree.arena.bySlot = [some (1, 10), none, some (3, 30), some (5, 50)] ∧
      (∃ searched after,
        locate (Comparator.flipping 3 compare) 6 context = .ok none searched ∧
          insert (Comparator.flipping 3 compare) 6 60 .reject context = .ok (.ok none) after ∧
          context.StoresAt after 6 60 .reject none (.ok none) ∧
          after.tree.arena.bySlot =
            [some (1, 10), some (6, 60), some (3, 30), some (5, 50)]) ∧
      (∃ searched after,
        locate (Comparator.flipping 3 compare) 5 context = .ok (some 3) searched ∧
          remove (Comparator.flipping 3 compare) 5 context = .ok (.ok (5, 50)) after ∧
          context.TakesFrom after (some 3) (.ok (5, 50)) ∧
          after.tree.arena.bySlot = [some (1, 10), none, some (3, 30), none]) ∧
      ∃ outcomes cursor between resumed after,
        (Cursor.start >>= Cursor.moves (Comparator.flipping 3 compare) [.next, .next]) context =
            .ok (outcomes, cursor) between ∧
          cursor.yielded = some 0 ∧
          cursor.remove (Comparator.flipping 3 compare) between =
            .ok (.ok (1, 10), resumed) after ∧
          between.TakesFrom after (some 0) (.ok (1, 10)) ∧
          after.tree.arena.bySlot = [none, none, some (3, 30), some (5, 50)] := by
  have hnew : Arena.withCapacity ⟨8, 24⟩ 0 = .ok (Arena.empty ⟨8, 24⟩ : Arena Nat Nat) := rfl
  obtain ⟨_, context, hrun, hreachable, -⟩ :=
    exists_reachable_run hnew (Comparator.flipping 3 compare) 0
      [.insert 1 10 .overwrite, .insert 2 20 .reject, .insert 3 30 .overwrite,
        .insert 2 40 .reject, .insert 5 50 .overwrite, (.remove 2 : Operation Unit Nat Nat)]
  obtain ⟨hstores, hremoves, -, hcursor⟩ :=
    handles_of_operations hreachable (Comparator.flipping 3 compare)
  have hslots := holds_of_ok hrun
    (fun _ context => context.tree.arena.bySlot =
      [some (1, 10), none, some (3, 30), some (5, 50)])
    (by decide +kernel)
  refine ⟨_, context, hrun, hslots, ?_, ?_, ?_⟩
  · obtain ⟨found, searched, answer, after, hlocate, hinsert, hfills⟩ := hstores 6 60 .reject
    obtain rfl : found = none :=
      holds_after hrun hlocate (fun _ found _ => found = none) (by decide +kernel)
    obtain rfl : answer = .ok none :=
      holds_after hrun hinsert (fun _ answer _ => answer = .ok none) (by decide +kernel)
    refine ⟨searched, after, hlocate, hinsert, hfills, ?_⟩
    exact holds_after hrun hinsert (fun _ _ after => after.tree.arena.bySlot = _)
      (by decide +kernel)
  · obtain ⟨found, searched, answer, after, hlocate, hremove, hvacates⟩ := hremoves 5
    obtain rfl : found = some 3 :=
      holds_after hrun hlocate (fun _ found _ => found = some 3) (by decide +kernel)
    obtain rfl : answer = .ok (5, 50) :=
      holds_after hrun hremove (fun _ answer _ => answer = .ok (5, 50)) (by decide +kernel)
    refine ⟨searched, after, hlocate, hremove, hvacates, ?_⟩
    exact holds_after hrun hremove (fun _ _ after => after.tree.arena.bySlot = _)
      (by decide +kernel)
  · obtain ⟨outcomes, cursor, between, answer, resumed, after, hmoves, hremove, hvacates⟩ :=
      hcursor [.next, .next]
    have hyielded : cursor.yielded = some 0 :=
      holds_after hrun hmoves (fun _ answer _ => answer.2.yielded = some 0) (by decide +kernel)
    -- the moves and the removal are one action
    have hboth : ((Cursor.start >>= Cursor.moves (Comparator.flipping 3 compare) [.next, .next]) >>=
        fun moved => moved.2.remove (Comparator.flipping 3 compare)) context = _ :=
      (bind_of_ok hmoves).trans hremove
    obtain rfl : answer = .ok (1, 10) :=
      holds_after hrun hboth (fun _ answer _ => answer.1 = .ok (1, 10)) (by decide +kernel)
    rw [hyielded] at hvacates
    refine ⟨outcomes, cursor, between, resumed, after, hmoves, hyielded, hremove, hvacates, ?_⟩
    exact holds_after hrun hboth (fun _ _ after => after.tree.arena.bySlot = _)
      (by decide +kernel)

end Engine

end RedBlack
