import RedBlack.Proofs.Engine.Traversal
import RedBlack.Proofs.SortedList.Containers
import RedBlack.Proofs.Tree.Height

/-!
# Resynchronization of Cursors

A cursor comes to its pending nodes in two ways: a step goes down the left spine of a right
subtree, and a removal descends from the root again, towards the removed key. Under a comparator
that follows an order both end in the same place. A place in a sorted tree is known from the
entries on its two sides (`Snapshot.trail_eq_of_parted`), so the descent towards the entry that
was yielded last ends where the cursor stands (`Stands.fst_trail`), and after a removal it ends
where a new cursor comes to, once it has passed the smaller keys (`Stands.exists_fresh`).

Whatever the comparator answers, the pending nodes are some of those on one path from the root
(`LinkedTree.RootPath`), so there are at most as many as the tree is high.
-/

namespace RedBlack

open RedBlack.Tree (Frame Path)

variable {σ τ K V : Type}

/-! ## Paths from the root -/

/-- The nodes on the way from the root to a link, lowest first. -/
inductive LinkedTree.RootPath (linked : LinkedTree K V) : List SlotId → Link → Prop
  /-- The way to the root passes no node. -/
  | root : linked.RootPath [] linked.root
  /-- The way to a child passes the node. -/
  | down {path : List SlotId} {id : SlotId} {node : Node K V} (side : Side) :
      linked.RootPath path (some id) → linked.arena.node? id = some node →
        linked.RootPath (id :: path) (node.child side)

/-- The nodes that the frames of a path stand for, lowest first. -/
def Tree.Path.route (path : Path (Cell K V)) : List SlotId :=
  List.map (fun frame => frame.entry.slot) path

/-- They are the nodes on the way to the place. -/
theorem LinkedTree.Leads.rootPath {linked : LinkedTree K V} {path : Path (Cell K V)} {hole : Link}
    (h : linked.Leads path hole) : linked.RootPath (Path.route path) hole := by
  induction path generalizing hole with
  | nil => exact h ▸ .root
  | cons frame path ih =>
    obtain ⟨hnode, -, hpath⟩ := h
    have hdown := RootPath.down frame.side (ih hpath) hnode
    rwa [Frame.child_node] at hdown

/-- Every empty place of the tree is at the end of such a way. -/
theorem LinkedTree.LaidOut.rootPath {linked : LinkedTree K V} {layout : Layout K V}
    (h : linked.LaidOut layout) {path : Path (Cell K V)}
    (htree : Tree.nil.under path = layout.tree) : linked.RootPath (Path.route path) none := by
  have hshows := h.shows
  rw [← htree] at hshows
  exact (LinkedTree.shows_under_iff.1 hshows).1.rootPath

/-- Pending nodes lie on the way to the place where the cursor stands. -/
theorem Tree.Path.pending_sublist (path : Path (Cell K V)) :
    (Path.pending path).Sublist (Path.route path) := by
  have h := (Path.turns_sublist path).map Cell.slot
  rwa [List.map_map] at h

/-- There are at most as many as the tree is high. -/
theorem Tree.Path.length_pending_le (path : Path (Cell K V)) :
    (Path.pending path).length ≤ (nil.under path).height := by
  rw [Path.pending, List.length_map]
  exact Path.length_turns_le path

/-! ## Places in sorted trees -/

namespace Snapshot

variable {order : Order K} {comparator : Comparator σ K} {snapshot after : Snapshot σ K V}
  {path up : Path (Cell K V)} {below : Tree (Cell K V)} {frame : Frame (Cell K V)} {key : K}

/-- The descent towards a key ends at any place with the greater keys, and no others, on its
right. -/
theorem trail_eq_of_parted (hfollows : comparator.Follows order)
    (htree : Tree.nil.under path = snapshot.layout.tree)
    (hbefore : ∀ entry ∈ (Path.before path).map Cell.entry, order key entry.1 ≠ .lt)
    (hafter : ∀ entry ∈ (Path.after path).map Cell.entry, order key entry.1 = .lt) :
    (snapshot.trail comparator key).1 = path := by
  have hask : ∀ (cell : Cell K V) memory,
      (comparator.probe key cell memory).1 = order key cell.key :=
    fun cell memory => hfollows key cell.key memory
  rw [List.forall_mem_map] at hbefore hafter
  rw [trail, ← htree]
  exact Tree.trail_eq_of_parted hask hbefore hafter snapshot.memory

/-- The last event of a removal says how many nodes are pending. -/
theorem back?_trace_of_cut {removed : K × V}
    (hcut : snapshot.cut comparator below frame up = ((removed, path), after)) :
    after.trace.back? = some (.resynchronized (Path.turns path).length) := by
  rw [cut] at hcut
  cases hcut
  simp [report]

end Snapshot

namespace SortedList

/-- The entries with smaller keys. -/
def smaller (order : Order K) (key : K) (entries : List (K × V)) : List (K × V) :=
  entries.filter fun entry => order entry.1 key == .lt

/-- The pending nodes of a cursor that yielded `entry` last are found again by a descent towards
its key. -/
structure Resynchronizes (order : Order K) (comparator : Comparator σ K) (entry : K × V)
    (cursor : Cursor) (context : Context σ K V) : Prop where
  /-- As long as the entry is there, the descent finds the same nodes. -/
  before : ∃ new, Cursor.resume comparator entry.1 context = .ok ⟨cursor.pending, none⟩ new
  /-- Once it is removed, the nodes found, as many as are reported, are those of a new cursor that
  has yielded all entries with smaller keys. -/
  after : ∃ resumed new entries fresh,
    cursor.remove comparator context = .ok (.ok entry, resumed) new ∧
    new.trace.back? = some (.resynchronized resumed.pending.length) ∧
    new.tree.entries = .ok entries ∧
    (Cursor.start >>= Cursor.moves comparator
      (List.replicate (smaller order entry.1 entries).length .next)) new =
        .ok ((smaller order entry.1 entries).map (.yielded ∘ some), fresh) new ∧
    fresh.pending = resumed.pending

variable {order : Order K} {comparator : Comparator σ K} {snapshot : Snapshot σ K V}
  {front back : List (K × V)} {place : Place K V} {traversal : Traversal K V}

/-- In front of the greater keys are the smaller ones. -/
theorem smaller_append [Std.OrientedCmp order] {key : K}
    (hfront : ∀ entry ∈ front, order key entry.1 = .gt)
    (hback : ∀ entry ∈ back, order key entry.1 = .lt) :
    smaller order key (front ++ back) = front := by
  rw [smaller, List.filter_append, List.filter_eq_self.2, List.filter_eq_nil_iff.2,
    List.append_nil]
  · intro entry hentry
    rw [Std.OrientedCmp.gt_of_lt (hback entry hentry)]
    decide
  · intro entry hentry
    rw [Std.OrientedCmp.lt_of_gt (hfront entry hentry)]
    rfl

namespace Stands

variable (h : Stands order snapshot place traversal)

include h

/-- What a cursor may remove is the last entry that was passed, and parts the others. -/
theorem exists_parts [Std.TransCmp order] {entry : K × V} (hheld : place.held = some entry) :
    ∃ front, traversal.passed = front ++ [entry] ∧
      (∀ other ∈ front, order entry.1 other.1 = .gt) ∧
      ∀ other ∈ traversal.ahead, order entry.1 other.1 = .lt := by
  rw [Place.held, Option.map_eq_some_iff] at hheld
  obtain ⟨⟨below, frame, up⟩, hlast, rfl⟩ := hheld
  obtain ⟨hbefore, -⟩ := Path.of_climb_right_eq_some (Place.climb_of_last? hlast)
  let front := (Path.before up ++ frame.sibling.toList).map Cell.entry
  have hpassed : traversal.passed = front ++ [frame.entry.entry] := by
    rw [← h.passed, hbefore, ← List.append_assoc, List.map_append]
    rfl
  have hascending := h.ascending
  rw [Traversal.entries, hpassed, List.append_assoc, List.singleton_append] at hascending
  exact ⟨front, hpassed, hascending.parts⟩

section

variable [Std.TransCmp order] (hfollows : comparator.Follows order)

include hfollows

/-- The descent towards the entry that was yielded last ends where the cursor stands. -/
theorem fst_trail {entry : K × V} (hheld : place.held = some entry) :
    (snapshot.trail comparator entry.1).1 = place.path := by
  obtain ⟨front, hpassed, hfront, hback⟩ := h.exists_parts hheld
  have hself : order entry.1 entry.1 = .eq := Std.ReflCmp.compare_self
  refine Snapshot.trail_eq_of_parted hfollows h.tree ?_ (h.ahead ▸ hback)
  -- the entry itself was passed too
  rw [h.passed, hpassed, List.forall_mem_append, List.forall_mem_singleton, hself]
  refine ⟨fun other hother => ?_, by decide⟩
  rw [hfront other hother]
  decide

/-- Removing it leads on to the place between the smaller and the greater keys, and reports how
many nodes are pending there. -/
theorem removeAt {entry : K × V} (hheld : place.held = some entry) :
    ∃ resumed after traversal',
      snapshot.removeAt comparator place = (.ok entry, resumed, after) ∧
      after.trace.back? = some (.resynchronized resumed.cursor.pending.length) ∧
      Stands order after resumed traversal' ∧
      (∀ other ∈ traversal'.passed, order entry.1 other.1 = .gt) ∧
      ∀ other ∈ traversal'.ahead, order entry.1 other.1 = .lt := by
  obtain ⟨front, hpassed, hfront, hback⟩ := h.exists_parts hheld
  rw [Place.held, Option.map_eq_some_iff] at hheld
  obtain ⟨⟨below, frame, up⟩, hlast, rfl⟩ := hheld
  rcases hcut : snapshot.cut comparator below frame up with ⟨⟨removed, path⟩, after⟩
  obtain ⟨hremoved, hstands⟩ := h.cut hfollows (Place.climb_of_last? hlast) hcut
  rw [hpassed, List.getLast?_concat] at hremoved
  cases hremoved
  rw [hpassed, List.dropLast_concat] at hstands
  refine ⟨⟨path, false⟩, after, _, ?_, ?_, hstands, hfront, hback⟩
  · rw [Snapshot.removeAt, hlast]
    simp only [hcut]
  · rw [Snapshot.back?_trace_of_cut hcut, Place.cursor, Path.pending, List.length_map]

/-- A new cursor that has passed the smaller keys stands between them and the greater ones, too. -/
theorem exists_fresh {key : K} (hpassed : ∀ entry ∈ traversal.passed, order key entry.1 = .gt)
    (hahead : ∀ entry ∈ traversal.ahead, order key entry.1 = .lt) :
    ∃ fresh : Place K V,
      Engine.Performs
        (Cursor.start >>= Cursor.moves comparator
          (List.replicate (smaller order key traversal.entries).length .next))
        snapshot snapshot
        ((smaller order key traversal.entries).map (.yielded ∘ some), fresh.cursor) ∧
      fresh.path = place.path := by
  have hcells : snapshot.cells = Path.before place.path ++ Path.after place.path := by
    rw [Snapshot.cells, ← h.tree, Tree.toList_under, Tree.toList, List.append_nil]
  have hsmaller : smaller order key traversal.entries = (Path.before place.path).map Cell.entry :=
    (smaller_append hpassed hahead).trans h.passed.symm
  obtain ⟨fresh, hmoves, htree, hbefore, hafter⟩ :=
    Engine.Performs.start_next comparator hcells
  refine ⟨fresh, ?_, ?_⟩
  · rw [hsmaller, List.length_map, List.map_map]
    exact hmoves
  · -- both are where the descent towards the key ends
    have hne : ∀ entry ∈ traversal.passed, order key entry.1 ≠ .lt := by
      intro entry hentry
      rw [hpassed entry hentry]
      decide
    rw [← h.passed] at hne
    rw [← h.ahead] at hahead
    have hfresh := Snapshot.trail_eq_of_parted hfollows htree (hbefore.symm ▸ hne)
      (hafter.symm ▸ hahead)
    exact hfresh.symm.trans (Snapshot.trail_eq_of_parted hfollows h.tree hne hahead)

/-- The two ways to the pending nodes agree. -/
theorem resynchronizes {entry : K × V} (hheld : place.held = some entry) {tree : LinkedTree K V}
    (hlaid : tree.LaidOut snapshot.layout) :
    Resynchronizes order comparator entry place.cursor (snapshot.around tree) := by
  obtain ⟨_, hresume, -⟩ := Engine.Performs.resume comparator entry.1 snapshot tree hlaid
  obtain ⟨resumed, after, traversal', hremoved, hlogged, hstands, hpassed, hahead⟩ :=
    h.removeAt hfollows hheld
  obtain ⟨new, hremove, hnew⟩ := Engine.Performs.removeAt comparator h.tree tree hlaid
  rw [hremoved] at hremove hnew
  obtain ⟨fresh, hfresh, hpath⟩ := hstands.exists_fresh hfollows hpassed hahead
  refine ⟨⟨_, h.fst_trail hfollows hheld ▸ hresume⟩, resumed.cursor, _, _, fresh.cursor, hremove,
    hlogged, ?_, hfresh.unchanged hnew, congrArg Path.pending hpath⟩
  exact (LinkedTree.entries_eq_ok hnew).trans (congrArg Except.ok hstands.agrees.entries_eq)

end

end Stands

/-- On every container that was reached, the pending nodes of a cursor are some of those on one
path from the root, in their order, so there are at most as many as the tree is high. Under a
comparator that follows an order, they are found again by a descent towards the key that was
yielded last, before and after its removal. -/
theorem resynchronization_agrees {room : Room} {capacity : Nat} {arena : Arena K V}
    (hnew : Arena.withCapacity room capacity = .ok arena) (comparator : Comparator σ K)
    (memory : σ) (operations : List (Operation τ K V)) (moves : List (Cursor.Move V)) :
    ∃ answers context outcomes cursor after path height,
      Engine.run (Operation.perform comparator) operations (.ofArena arena memory) =
        .ok answers context ∧
      (Cursor.start >>= Cursor.moves comparator moves) context = .ok (outcomes, cursor) after ∧
      after.tree.RootPath path none ∧
      cursor.pending.Sublist path ∧
      after.tree.height = .ok height ∧
      cursor.pending.length ≤ height ∧
      ∀ (order : Order K) [Std.TransCmp order], comparator.Follows order →
        ∀ entry, Cursor.held none moves outcomes = some entry →
          Resynchronizes order comparator entry cursor after := by
  have hrun := Engine.Performs.run (Engine.Performs.operation comparator) operations
    (.empty arena.capacity room memory)
  obtain ⟨tree, hok, hlaid⟩ := hrun.exists_eq_ok hnew
  let reached := ((Snapshot.empty arena.capacity room memory).run
    (fun operation => Snapshot.perform comparator operation) operations).2
  obtain ⟨tree', hmoved, hlaid'⟩ := Engine.Performs.traverse comparator moves reached tree hlaid
  have hplace :=
    Snapshot.nil_under_moves comparator (Place.nil_under_start reached.layout.tree) moves
  refine ⟨_, _, _, _, _, _, _, hok, hmoved, hlaid'.rootPath hplace, Path.pending_sublist _,
    hlaid'.height_eq_ok, hplace ▸ Path.length_pending_le _, ?_⟩
  intro order _ hfollows entry hlast
  -- whether or not storage was refused on the way, the entries are ascending
  obtain ⟨entries, h⟩ := Agrees.exists_run (fun h => h.perform hfollows)
    (.empty order arena.capacity room memory) operations
  obtain ⟨-, hstands⟩ := h.stands_start.moves hfollows moves
  have hheld := Snapshot.held_moves comparator reached (.start reached.layout.tree) moves
  exact hstands.resynchronizes hfollows (hheld.trans hlast) hlaid'

/-- A cursor that has removed an entry and replaced the value of another one. -/
theorem resynchronization_agrees_tens :
    ∃ answers context outcomes cursor after path height,
      Engine.run (Operation.perform (.ofOrder (compareOn (· / 10))))
        [.insert 12 1 .overwrite, .insert 35 2 .overwrite, .insert 21 3 .overwrite,
          .insert 47 4 .reject, (.insert 14 5 .overwrite : Operation Unit Nat Nat)]
        (.ofArena (Arena.empty ⟨8, 24⟩) ()) = .ok answers context ∧
      (Cursor.start >>= Cursor.moves (.ofOrder (compareOn (· / 10)))
        [.next, .remove, .next, .replace 6, .hasNext]) context = .ok (outcomes, cursor) after ∧
      after.tree.RootPath path none ∧
      cursor.pending.Sublist path ∧
      after.tree.height = .ok height ∧
      cursor.pending.length ≤ height ∧
      Resynchronizes (compareOn (· / 10)) (.ofOrder (compareOn (· / 10))) (35, 6) cursor after := by
  obtain ⟨answers, context, outcomes, cursor, after, path, height, hrun, hmoved, hpath, hpending,
    hheight, hle, hresynchronizes⟩ :=
    resynchronization_agrees (rfl : Arena.withCapacity ⟨8, 24⟩ 0 = .ok (Arena.empty ⟨8, 24⟩))
      (.ofOrder (compareOn (· / 10))) ()
      [.insert 12 1 .overwrite, .insert 35 2 .overwrite, .insert 21 3 .overwrite,
        .insert 47 4 .reject, (.insert 14 5 .overwrite : Operation Unit Nat Nat)]
      [.next, .remove, .next, .replace 6, .hasNext]
  -- the outcomes are computed, and the entry that was yielded last is read off them
  have hheld := Engine.holds_after hrun hmoved
    (fun _ moved _ =>
      Cursor.held none [.next, .remove, .next, .replace 6, .hasNext] moved.1 = some (35, 6))
    (by decide +kernel)
  exact ⟨answers, context, outcomes, cursor, after, path, height, hrun, hmoved, hpath, hpending,
    hheight, hle, hresynchronizes _ (Comparator.follows_ofOrder _) (35, 6) hheld⟩

end SortedList

end RedBlack
