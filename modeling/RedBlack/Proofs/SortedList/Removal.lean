import RedBlack.Proofs.Engine.Draining
import RedBlack.Proofs.SortedList.RemovedKeys
import RedBlack.Proofs.SortedList.SinglePass

/-!
# Removal by Position and by Key

Under a comparator that follows an order, the descent for the key of a node ends at this node
(`Agrees.seek_eq`), so it makes no difference whether an entry is removed where a cursor, a
filter or an end of the tree has led to it, or is looked for by its key: the same node is taken
out of the same tree, which is repaired in the same way (`Stands.removals_eq`).

`SortedList.removals_agree` says so about everything that removes entries. Values that are put in
on the way are no part of it, since no removal looks at them.
-/

namespace RedBlack

open RedBlack.Tree (Frame Path)

variable {σ τ υ K V : Type}

/-- Remove the outermost entry on one side by its key. -/
def Engine.removeOutermost (comparator : Comparator σ K) (side : Side) :
    EngineM σ K V (Except Error (K × V)) := do
  match ← Engine.outermost side with
  | .error cause => return .error cause
  | .ok entry => Engine.remove comparator entry.1

namespace SortedList

variable {order : Order K} {comparator : Comparator σ K} {snapshot after other : Snapshot σ K V}
  {entries : List (K × V)} {color : Color} {cell : Cell K V}
  {left right below : Tree (Cell K V)} {frame : Frame (Cell K V)} {path up : Path (Cell K V)}

/-! ## Nodes found by their keys -/

namespace Agrees

variable [Std.TransCmp order] (hfollows : comparator.Follows order)
  (h : Agrees order snapshot entries)

include hfollows h

/-- The descent for the key of a node ends at this node. -/
theorem seek_eq (htree : (Tree.node color left cell right).under path = snapshot.layout.tree) :
    ∃ memory, snapshot.seek comparator cell.key =
      ((.node color left cell right, path), { snapshot with memory }) := by
  have hascending := h.ascending
  rw [← h.entries_eq, Snapshot.entries, ← htree, Tree.toList_node_under] at hascending
  obtain ⟨hfront, hback⟩ := parts_key hascending
  have hparts : Tree.Parts (fun other : Cell K V => order cell.key other.key) path :=
    ⟨fun other hother => hfront other (List.mem_append_left _ hother),
      fun other hother => hback other (List.mem_append_right _ hother)⟩
  have hself : order cell.key cell.key = .eq := Std.ReflCmp.compare_self
  -- what the comparator remembers makes no difference to its answers
  have hask : ∀ (other : Cell K V) memory,
      (comparator.probe cell.key other memory).1 = order cell.key other.key :=
    fun other memory => hfollows cell.key other.key memory
  have hplace : (((Tree.node color left cell right).under path).seek (comparator.probe cell.key) []
      snapshot.memory).1 = (.node color left cell right, path) :=
    Tree.seek_eq_of_parts hask hparts hself snapshot.memory
  rw [htree] at hplace
  rcases hseek : snapshot.layout.tree.seek (comparator.probe cell.key) [] snapshot.memory with
    ⟨place, memory⟩
  rw [hseek] at hplace
  cases hplace
  exact ⟨memory, by simp only [Snapshot.seek, hseek]⟩

/-- Removing the key of a node takes this node out. -/
theorem remove_eq (htree : (Tree.node color left cell right).under path = snapshot.layout.tree) :
    ∃ memory, snapshot.remove comparator cell.key =
      (.ok cell.entry, { (snapshot.erase color left cell right path).2 with memory }) := by
  obtain ⟨memory, hseek⟩ := h.seek_eq hfollows htree
  refine ⟨memory, ?_⟩
  simp only [Snapshot.remove, hseek]
  rfl

/-- Removing the key of the node of a frame takes this node out. -/
theorem remove_eq_eraseFrame (htree : below.under (frame :: up) = snapshot.layout.tree) :
    ∃ memory, snapshot.remove comparator frame.entry.key =
      (.ok frame.entry.entry, { (snapshot.eraseFrame below frame up).2 with memory }) := by
  rw [Tree.under_cons, Frame.close_eq_node] at htree
  exact h.remove_eq hfollows htree

/-- The node in an occupied slot is found by its key. -/
theorem locate_eq_ok {tree : LinkedTree K V} (hlaid : tree.LaidOut snapshot.layout) {id : SlotId}
    {node : Node K V} (hnode : tree.arena.node? id = some node) :
    ∃ memory, Engine.locate comparator node.key (snapshot.around tree) =
      .ok (some id) { snapshot.around tree with memory } := by
  have hid : id ∈ snapshot.layout.tree.slots := hlaid.storage.mem_occupied_iff.2 ⟨node, hnode⟩
  obtain ⟨cell, hcell, rfl⟩ := List.mem_map.1 hid
  obtain ⟨color, left, right, path, htree⟩ := Tree.exists_under_of_mem hcell []
  rw [Tree.under_nil] at htree
  -- the slot stores the node that the tree has there
  have hshows := hlaid.shows
  rw [← htree] at hshows
  obtain ⟨-, hstored, -⟩ := LinkedTree.shows_under_iff.1 hshows
  cases hnode.symm.trans hstored
  obtain ⟨memory, hseek⟩ := h.seek_eq hfollows htree
  obtain ⟨new, hlocate, hnew⟩ := Engine.Performs.locate comparator cell.key snapshot tree hlaid
  rw [hseek] at hlocate hnew
  cases hnew.unique hlaid
  exact ⟨memory, hlocate⟩

/-- Removing the outermost entry by its key is removing it where it is. -/
theorem removeOutermost (side : Side) :
    ∃ memory, Engine.Performs (Engine.removeOutermost comparator side) snapshot
      { (snapshot.pop side).2 with memory } (snapshot.pop side).1 := by
  have houtermost := Engine.Performs.outermost side snapshot
  rw [Snapshot.outermost] at houtermost
  rw [Snapshot.pop]
  -- both begin at the same end of the tree, and only one of them asks the comparator
  rcases hspine : snapshot.layout.tree.spine side [] with _ | ⟨frame, path⟩
  · rw [hspine] at houtermost
    exact ⟨snapshot.memory, .bind houtermost (.pure _ _)⟩
  · rw [hspine] at houtermost
    have htree : Tree.nil.under (frame :: path) = snapshot.layout.tree := by
      rw [← hspine, Tree.nil_under_spine, Tree.under_nil]
    obtain ⟨memory, hremove⟩ := h.remove_eq_eraseFrame hfollows htree
    have hremoves := Engine.Performs.remove comparator frame.entry.key snapshot
    rw [hremove] at hremoves
    exact ⟨memory, .bind houtermost hremoves⟩

theorem pop_removeOutermost {tree : LinkedTree K V} (hlaid : tree.LaidOut snapshot.layout)
    (side : Side) :
    ∃ answer after memory,
      Engine.pop side (snapshot.around tree) = .ok answer after ∧
      Engine.removeOutermost comparator side (snapshot.around tree) =
        .ok answer { after with memory } := by
  obtain ⟨memory, hremoves⟩ := h.removeOutermost hfollows side
  obtain ⟨popped, hpop, hpopped⟩ := Engine.Performs.pop side snapshot tree hlaid
  obtain ⟨removed, hremove, hremoved⟩ := hremoves tree hlaid
  cases hremoved.unique hpopped
  exact ⟨_, _, memory, hpop, hremove⟩

end Agrees

/-! ## Removals of a cursor -/

/-- Taking a node out where it is and removing its key leave the same layout. -/
theorem Agrees.remove_of_cut [Std.TransCmp order] (hfollows : comparator.Follows order)
    (h : Agrees order other entries) (htree : below.under (frame :: up) = snapshot.layout.tree)
    (hlayout : other.layout = snapshot.layout) {removed : K × V}
    (hcut : snapshot.cut comparator below frame up = ((removed, path), after)) :
    (other.remove comparator removed.1).1 = .ok removed ∧
      (other.remove comparator removed.1).2.layout = after.layout := by
  obtain ⟨rfl, -⟩ := Snapshot.of_cut_eq hcut
  obtain ⟨memory, hremove⟩ := h.remove_eq_eraseFrame hfollows (hlayout ▸ htree)
  have hafter : after.layout = (snapshot.eraseFrame below frame up).2.layout :=
    congrArg (fun result => result.2.layout) hcut.symm
  have hsame : (other.eraseFrame below frame up).2.layout =
      (snapshot.eraseFrame below frame up).2.layout :=
    congrArg (fun layout => (layout.erase frame.color (frame.left below) frame.entry
      (frame.right below) up).2) hlayout
  have hkey : frame.entry.entry.1 = frame.entry.key := rfl
  rw [hkey, hremove]
  exact ⟨rfl, hsame.trans hafter.symm⟩

/-- What a cursor removes that puts no values in, the removal of the keys one after the other
removes too, and both leave the same layout. -/
theorem Stands.removals_eq [Std.TransCmp order] (hfollows : comparator.Follows order)
    {place : Place K V} {traversal : Traversal K V} (h : Stands order snapshot place traversal)
    {moves : List (Cursor.Move V)} (hplain : ∀ move ∈ moves, move.plain = move)
    (hlayout : other.layout = snapshot.layout) :
    let removed := (snapshot.moves comparator place moves).1.filterMap Cursor.Outcome.removal
    let result := other.run (fun key snapshot => Snapshot.remove comparator key snapshot)
      (removed.map Prod.fst)
    result.1 = removed.map .ok ∧
      result.2.layout = (snapshot.moves comparator place moves).2.2.layout := by
  -- the two stay in step: their layouts are the same, whatever the comparators remember
  induction moves generalizing snapshot other place traversal with
  | nil => exact ⟨rfl, hlayout⟩
  | cons move moves ih =>
    obtain ⟨hfirst, hrest⟩ := List.forall_mem_cons.1 hplain
    obtain ⟨-, hstands⟩ := h.move hfollows move
    cases move with
    | next => exact ih hstands hrest hlayout
    | replace value => cases hfirst
    | hasNext => exact ih hstands hrest hlayout
    | remove =>
      simp only [Snapshot.moves, Snapshot.move, Snapshot.removeAt] at hstands ⊢
      rcases hlast : place.last? with _ | ⟨below, frame, up⟩
      · rw [hlast] at hstands
        exact ih hstands hrest hlayout
      · rcases hcut : snapshot.cut comparator below frame up with ⟨⟨removed, path⟩, after⟩
        simp only [hlast, hcut] at hstands ⊢
        -- the node that the cursor holds is the one that its key leads to
        have htree := (Path.of_climb_eq_some (Place.climb_of_last? hlast)).2.symm.trans h.tree
        have hagrees : Agrees order other traversal.entries :=
          h.agrees.congr (congrArg (fun layout => layout.tree.toList) hlayout)
        obtain ⟨hremoved, hafter⟩ := hagrees.remove_of_cut hfollows htree hlayout hcut
        obtain ⟨hanswers, hlast⟩ := ih hstands hrest hafter
        refine ⟨?_, hlast⟩
        exact congrArg₂ List.cons hremoved hanswers

/-- Removing entries by their keys, one after the other, does the same as what has led from a
context to a tree: it hands back the same keys, which are ascending, and leaves the same tree but
for the values. If no value was changed, it hands back the same entries and leaves exactly the same
tree. -/
structure RemovedByKey (order : Order K) (comparator : Comparator σ K) (context : Context σ K V)
    (removed : List (K × V)) (unchanged : Prop) (tree : LinkedTree K V) : Prop where
  /-- The keys are ascending. -/
  ascending : Ascending order removed
  /-- The same keys are handed back, and the same tree is left. -/
  agrees : ∃ answers last,
    Engine.run (Engine.remove comparator) (removed.map Prod.fst) context = .ok answers last ∧
    answers.map (Except.map Prod.fst) = (removed.map Prod.fst).map .ok ∧
    last.tree.skeleton = tree.skeleton ∧
    (unchanged → answers = removed.map .ok ∧ last.tree = tree)

/-- Less has to hold if more is assumed. -/
theorem RemovedByKey.mono {context : Context σ K V} {removed : List (K × V)}
    {unchanged unchanged' : Prop} {tree : LinkedTree K V}
    (h : RemovedByKey order comparator context removed unchanged tree)
    (himp : unchanged' → unchanged) :
    RemovedByKey order comparator context removed unchanged' tree := by
  obtain ⟨hascending, answers, last, hrun, hkeys, hskeleton, hsame⟩ := h
  exact ⟨hascending, answers, last, hrun, hkeys, hskeleton, hsame ∘ himp⟩

namespace Agrees

section

variable [Std.TransCmp order] (hfollows : comparator.Follows order)
  (h : Agrees order snapshot entries) {moves : List (Cursor.Move V)}
  {outcomes : List (Cursor.Outcome K V)} {last : Place K V}
  (hmoves : snapshot.moves comparator (.start snapshot.layout.tree) moves = (outcomes, last, after))

include hfollows h hmoves

/-- A cursor answers as a traversal of the list does. -/
theorem outcomes_eq : outcomes = ((Traversal.start entries).moves moves).1 :=
  (congrArg Prod.fst hmoves).symm.trans (h.stands_start.moves hfollows moves).1

/-- The keys that a cursor removes are ascending. -/
theorem ascending_removed : Ascending order (outcomes.filterMap Cursor.Outcome.removal) := by
  rw [h.outcomes_eq hfollows hmoves]
  exact h.ascending.of_keys_sublist (Traversal.removedKeys_sublist (.start entries) moves)

/-- A cursor that puts no values in removes the same keys. -/
theorem removedKeys_plain :
    ((snapshot.moves comparator (.start snapshot.layout.tree)
        (moves.map Cursor.Move.plain)).1.filterMap Cursor.Outcome.removal).map Prod.fst =
      (outcomes.filterMap Cursor.Outcome.removal).map Prod.fst := by
  rw [h.outcomes_eq hfollows hmoves, (h.stands_start.moves hfollows _).1]
  exact Traversal.removedKeys_plain (.start entries) moves

/-- What a cursor removes can be removed by the keys, one after the other. -/
theorem removedByKey {unchanged : Prop}
    (hunchanged : unchanged →
      snapshot.moves comparator (.start snapshot.layout.tree) (moves.map Cursor.Move.plain) =
        (outcomes, last, after))
    {tree new : LinkedTree K V} (hlaid : tree.LaidOut snapshot.layout)
    (hnew : new.LaidOut after.layout) :
    RemovedByKey order comparator (snapshot.around tree)
      (outcomes.filterMap Cursor.Outcome.removal) unchanged new := by
  have hkeys := h.removedKeys_plain hfollows hmoves
  have hplain : ∀ move ∈ moves.map Cursor.Move.plain, move.plain = move :=
    List.forall_mem_map.2 fun move _ => move.plain_plain
  have hskeleton := Snapshot.skeleton_moves_plain comparator
    (Place.nil_under_start snapshot.layout.tree) moves
  rw [hmoves] at hskeleton
  -- a cursor that puts no values in is followed exactly, and it leaves the same skeleton
  obtain ⟨hanswers, hlayout⟩ := h.stands_start.removals_eq hfollows hplain rfl
  obtain ⟨new', hrun, hnew'⟩ := Engine.Performs.run (Engine.Performs.remove comparator)
    ((outcomes.filterMap Cursor.Outcome.removal).map Prod.fst) snapshot tree hlaid
  rw [hkeys] at hanswers hlayout
  rw [hanswers] at hrun
  refine ⟨h.ascending_removed hfollows hmoves, _, _, hrun, ?_, ?_, fun hsame => ?_⟩
  · rw [List.map_map, ← hkeys, List.map_map]
    rfl
  · exact hnew'.skeleton_eq hnew ((congrArg Layout.skeleton hlayout).trans hskeleton)
  -- without changes, that cursor is the one at hand
  · rw [hunchanged hsame] at hlayout ⊢
    exact ⟨rfl, (hlayout ▸ hnew').unique hnew⟩

end

section

variable [Std.TransCmp order] (hfollows : comparator.Follows order)
  (h : Agrees order snapshot entries) {tree : LinkedTree K V}
  (hlaid : tree.LaidOut snapshot.layout)

include hfollows h hlaid

theorem traverse_removedByKey (moves : List (Cursor.Move V)) :
    ∃ outcomes cursor after,
      (Cursor.start >>= Cursor.moves comparator moves) (snapshot.around tree) =
        .ok (outcomes, cursor) after ∧
      RemovedByKey order comparator (snapshot.around tree)
        (outcomes.filterMap Cursor.Outcome.removal)
        (List.Forall₂ Cursor.Move.Restores moves outcomes) after.tree := by
  obtain ⟨new, hmoved, hnew⟩ := Engine.Performs.traverse comparator moves snapshot tree hlaid
  refine ⟨_, _, _, hmoved, h.removedByKey hfollows rfl (fun hrestores => ?_) hlaid hnew⟩
  exact Snapshot.moves_plain comparator (Place.nil_under_start snapshot.layout.tree) hrestores

theorem drain_removedByKey [BEq K] [KeyKind K] [Contents V] (filter : Session.Filter K) :
    ∃ visits cursor after,
      (Cursor.start >>= fun cursor => Session.cursorStep comparator cursor (.drain filter))
          (snapshot.around tree) =
        .ok (.drained visits, cursor) after ∧
      RemovedByKey order comparator (snapshot.around tree) (visits.filterMap Session.visitRemoval)
        True after.tree := by
  obtain ⟨visits, outcomes, last, after, new, hdrain, hnew, hmoves, hremovals⟩ :=
    Engine.exists_drain comparator filter snapshot hlaid
  refine ⟨visits, _, _, hdrain, ?_⟩
  rw [← hremovals]
  refine h.removedByKey hfollows hmoves (fun _ => ?_) hlaid hnew
  rw [Session.map_plain_visitMoves, hmoves]

theorem retain_removedByKey (keep : K → V → StateM τ (Bool × V)) (state : τ) :
    ∃ calls final after,
      SinglePass comparator keep state (snapshot.around tree) calls final after ∧
      RemovedByKey order comparator (snapshot.around tree) (calls.filterMap Call.dropped)
        (∀ call ∈ calls, call.left = call.entry.2) after.tree := by
  obtain ⟨calls, final, after, hpass, -⟩ := h.singlePass hfollows keep state hlaid
  -- the cursor that does what the filter does
  obtain ⟨last, hcursor⟩ := hpass.cursor
  obtain ⟨outcomes, cursor, new, hmoved, hremoved⟩ :=
    h.traverse_removedByKey hfollows hlaid (calls.flatMap Call.moves ++ [.next])
  cases hcursor.symm.trans hmoved
  rw [Call.removals] at hremoved
  exact ⟨calls, final, after, hpass, hremoved.mono Call.restores⟩

end

end Agrees

/-- Everything that removes entries from a container does what removing them by their keys
does. -/
structure RemovalsAgree (order : Order K) (comparator : Comparator σ K) (context : Context σ K V) :
    Prop where
  /-- Every node is found by its key. -/
  found : ∀ id node, context.tree.arena.node? id = some node →
    ∃ memory, Engine.locate comparator node.key context = .ok (some id) { context with memory }
  /-- At both ends, removing the outermost entry is removing it by its key. -/
  popped : ∀ side, ∃ answer after memory,
    Engine.pop side context = .ok answer after ∧
    Engine.removeOutermost comparator side context = .ok answer { after with memory }
  /-- What a cursor removes can be removed by the keys. -/
  traversed : ∀ moves, ∃ outcomes cursor after,
    (Cursor.start >>= Cursor.moves comparator moves) context = .ok (outcomes, cursor) after ∧
    RemovedByKey order comparator context (outcomes.filterMap Cursor.Outcome.removal)
      (List.Forall₂ Cursor.Move.Restores moves outcomes) after.tree
  /-- What a drain removes can be removed by the keys. -/
  drained : ∀ [BEq K] [KeyKind K] [Contents V] (filter : Session.Filter K),
    ∃ visits cursor after,
      (Cursor.start >>= fun cursor => Session.cursorStep comparator cursor (.drain filter))
          context =
        .ok (.drained visits, cursor) after ∧
      RemovedByKey order comparator context (visits.filterMap Session.visitRemoval) True after.tree
  /-- What a filter removes can be removed by the keys. -/
  retained : ∀ {τ : Type} (keep : K → V → StateM τ (Bool × V)) (state : τ),
    ∃ calls final after,
      SinglePass comparator keep state context calls final after ∧
      RemovedByKey order comparator context (calls.filterMap Call.dropped)
        (∀ call ∈ calls, call.left = call.entry.2) after.tree

/-- Under a comparator that follows an order, on every container that was reached, the descent for
the key of a node ends at this node. So the entries that are removed at an end of the tree, by a
cursor, by a drain or by a filter can as well be removed by their keys, one after the other: the
answers are the same, and so is the tree, with its colours, its slots and the free list. -/
theorem removals_agree [Std.TransCmp order] (hfollows : comparator.Follows order)
    {room : Room} {capacity : Nat} {arena : Arena K V}
    (hnew : Arena.withCapacity room capacity = .ok arena) (memory : σ)
    (operations : List (Operation υ K V)) :
    ∃ answers context,
      Engine.run (Operation.perform comparator) operations (.ofArena arena memory) =
        .ok answers context ∧
      RemovalsAgree order comparator context := by
  obtain ⟨answers, snapshot, tree, entries, hok, hlaid, h⟩ :=
    Agrees.exists_reached hfollows hnew memory operations
  exact ⟨_, _, hok,
    { found := fun id node => h.locate_eq_ok hfollows hlaid
      popped := fun side => h.pop_removeOutermost hfollows hlaid side
      traversed := h.traverse_removedByKey hfollows hlaid
      drained := h.drain_removedByKey hfollows hlaid
      retained := h.retain_removedByKey hfollows hlaid }⟩

/-- Under an order that calls keys equal if they have the same tens, the node with the key 12, whose
value was overwritten under the key 14, is found in the first slot. -/
theorem removals_agree_tens :
    ∃ answers context node memory,
      Engine.run (Operation.perform (.ofOrder (compareOn (· / 10))))
        [.insert 12 1 .overwrite, .insert 35 2 .overwrite, .insert 21 3 .overwrite,
          .insert 47 4 .reject, (.insert 14 5 .overwrite : Operation Unit Nat Nat)]
        (.ofArena (Arena.empty ⟨8, 24⟩) ()) = .ok answers context ∧
      RemovalsAgree (compareOn (· / 10)) (.ofOrder (compareOn (· / 10))) context ∧
      context.tree.arena.node? 0 = some node ∧
      node.entry = (12, 5) ∧
      Engine.locate (.ofOrder (compareOn (· / 10))) 12 context =
        .ok (some 0) { context with memory } := by
  obtain ⟨answers, context, hrun, hagree⟩ :=
    removals_agree (Comparator.follows_ofOrder (compareOn (· / 10)))
      (rfl : Arena.withCapacity ⟨8, 24⟩ 0 = .ok (Arena.empty ⟨8, 24⟩)) ()
      [.insert 12 1 .overwrite, .insert 35 2 .overwrite, .insert 21 3 .overwrite,
        .insert 47 4 .reject, (.insert 14 5 .overwrite : Operation Unit Nat Nat)]
  -- the entry in the slot is read off the container that was reached
  have hstored := Engine.holds_of_ok hrun
    (fun _ context => (context.tree.arena.node? 0).map Node.entry = some (12, 5))
    (by decide +kernel)
  obtain ⟨node, hnode, hentry⟩ := Option.map_eq_some_iff.1 hstored
  obtain ⟨memory, hlocate⟩ := hagree.found 0 node hnode
  rw [show node.key = 12 from congrArg Prod.fst hentry] at hlocate
  exact ⟨answers, context, node, memory, hrun, hagree, hnode, hentry, hlocate⟩

end SortedList

end RedBlack
