import RedBlack.Proofs.Engine.Effect
import RedBlack.Proofs.Engine.Reachable

/-!
# Operations and the Cells in Order

Every operation has its effect on the cells in order, under an arbitrary comparator: first on
snapshots (`Snapshot.effect`), where rebalancing is known to keep the order, then for the links
of every reachable tree (`Engine.cells_in_order`).
-/

namespace RedBlack

open RedBlack.Tree (Frame Path)
open Engine (Landing)

variable {σ τ K V : Type}

/-! ## Effects on snapshots -/

/-- The empty place at the end of a path parts the cells before and after it. -/
theorem Tree.Path.gap (path : Path (Cell K V)) :
    Gap path.owner path.side path.before path.after := by
  cases path with
  | nil => exact .root .left
  | cons frame path =>
    obtain ⟨_ | _, color, cell, sibling⟩ := frame
    · exact .left (Path.before path) cell (sibling.toList ++ Path.after path)
    · rw [Path.before, ← List.append_assoc]
      exact .right (Path.before path ++ sibling.toList) cell (Path.after path)

namespace Snapshot

/-- The cells from left to right. -/
def cells (snapshot : Snapshot σ K V) : List (Cell K V) :=
  snapshot.layout.tree.toList

theorem cells_congr {snapshot after : Snapshot σ K V} (h : after.layout = snapshot.layout) :
    after.cells = snapshot.cells :=
  congrArg (·.tree.toList) h

theorem cells_withTree (snapshot : Snapshot σ K V) (tree : Tree (Cell K V)) :
    (snapshot.withTree tree).cells = tree.toList := rfl

theorem released_release (snapshot : Snapshot σ K V) (values : List V) :
    (snapshot.release values).released = snapshot.released ++ values := rfl

/-- Where the descent for a key ends. -/
def lands (comparator : Comparator σ K) (snapshot : Snapshot σ K V) (key : K) : Landing :=
  Engine.landing (snapshot.seek comparator key).1

/-- An answer and a snapshot come from an operation with its effect. -/
def Affected (comparator : Comparator σ K) (operation : Operation τ K V)
    (snapshot : Snapshot σ K V) (result : Answer τ K V × Snapshot σ K V) : Prop :=
  ∃ released : List V, result.2.released = snapshot.released ++ released ∧
    operation.Effect (snapshot.lands comparator) snapshot.cells result.1 result.2.cells released

variable {comparator : Comparator σ K} {operation : Operation τ K V} {key : K}
  {snapshot after : Snapshot σ K V} {answer : Answer τ K V} {path : Path (Cell K V)}
  {color : Color} {left right : Tree (Cell K V)} {cell : Cell K V}

/-- An effect without released values. -/
theorem Affected.of_released_eq (hreleased : after.released = snapshot.released)
    (h : operation.Effect (snapshot.lands comparator) snapshot.cells answer after.cells []) :
    Affected comparator operation snapshot (answer, after) :=
  ⟨[], hreleased.trans Array.appendList_nil.symm, h⟩

/-- An answer alone. -/
theorem Affected.of_reads (hlayout : after.layout = snapshot.layout)
    (hreleased : after.released = snapshot.released)
    (h : operation.Reads (snapshot.lands comparator) snapshot.cells answer) :
    Affected comparator operation snapshot (answer, after) := by
  refine .of_released_eq hreleased ?_
  rw [cells_congr hlayout]
  exact .reads h

/-- A descent that ends in an empty place parts the cells there. -/
theorem of_seek_nil (h : snapshot.seek comparator key = ((.nil, path), after)) :
    snapshot.lands comparator key = .gap path.owner path.side ∧
      after.layout = snapshot.layout ∧ after.released = snapshot.released ∧
      snapshot.cells = path.before ++ path.after := by
  obtain ⟨hunder, hlayout⟩ := of_seek_eq h
  refine ⟨?_, hlayout, ?_, ?_⟩
  · rw [lands, h]
    rfl
  · exact (congrArg (fun result => result.2.released) h).symm
  · rw [cells, ← hlayout, ← hunder, Tree.toList_under, Tree.toList, List.append_nil]

/-- A descent that ends at a node singles out its cell. -/
theorem of_seek_node
    (h : snapshot.seek comparator key = ((.node color left cell right, path), after)) :
    snapshot.lands comparator key = .found cell.slot ∧
      after.layout = snapshot.layout ∧ after.released = snapshot.released ∧
      snapshot.cells = (path.before ++ left.toList) ++ cell :: (right.toList ++ path.after) := by
  obtain ⟨hunder, hlayout⟩ := of_seek_eq h
  refine ⟨?_, hlayout, ?_, ?_⟩
  · rw [lands, h]
    rfl
  · exact (congrArg (fun result => result.2.released) h).symm
  · rw [cells, ← hlayout, ← hunder, Tree.toList_node_under]

/-! ### Access by key and by position -/

section

variable (comparator : Comparator σ K) (key : K) (snapshot : Snapshot σ K V)

theorem affected_get :
    Affected comparator (.get key : Operation τ K V) snapshot
      (snapshot.perform comparator (.get key)) := by
  rcases hseek : snapshot.seek comparator key with
    ⟨⟨_ | ⟨color, left, cell, right⟩, path⟩, after⟩
  all_goals simp only [perform, get, hseek]
  · obtain ⟨hland, hlayout, hreleased, -⟩ := of_seek_nil hseek
    exact .of_reads hlayout hreleased (.getMissing hland)
  · obtain ⟨hland, hlayout, hreleased, hcells⟩ := of_seek_node hseek
    exact .of_reads hlayout hreleased (.get hland (hcells ▸ List.mem_append_cons_self))

theorem affected_contains :
    Affected comparator (.contains key : Operation τ K V) snapshot
      (snapshot.perform comparator (.contains key)) := by
  rcases hseek : snapshot.seek comparator key with
    ⟨⟨_ | ⟨color, left, cell, right⟩, path⟩, after⟩
  all_goals simp only [perform, contains, hseek]
  · obtain ⟨hland, hlayout, hreleased, -⟩ := of_seek_nil hseek
    exact .of_reads hlayout hreleased (.containsMissing hland)
  · obtain ⟨hland, hlayout, hreleased, hcells⟩ := of_seek_node hseek
    exact .of_reads hlayout hreleased (.contains hland (hcells ▸ List.mem_append_cons_self))

theorem affected_update (change : V → V) :
    Affected comparator (.update key change : Operation τ K V) snapshot
      (snapshot.perform comparator (.update key change)) := by
  rcases hseek : snapshot.seek comparator key with
    ⟨⟨_ | ⟨color, left, cell, right⟩, path⟩, after⟩
  all_goals simp only [perform, update, hseek]
  · obtain ⟨hland, hlayout, hreleased, -⟩ := of_seek_nil hseek
    exact .of_reads hlayout hreleased (.updateMissing hland)
  · obtain ⟨hland, -, hreleased, hcells⟩ := of_seek_node hseek
    refine .of_released_eq hreleased ?_
    rw [hcells, cells_withTree, Tree.toList_node_under]
    exact .update _ cell _ hland

theorem affected_insert (value : V) (policy : DuplicatePolicy) :
    Affected comparator (.insert key value policy : Operation τ K V) snapshot
      (snapshot.perform comparator (.insert key value policy)) := by
  rcases hseek : snapshot.seek comparator key with
    ⟨⟨_ | ⟨color, left, cell, right⟩, path⟩, after⟩
  · obtain ⟨hland, hlayout, hreleased, hcells⟩ := of_seek_nil hseek
    simp only [perform, insert, hseek]
    rcases after.of_insertAt key path value with
      ⟨hanswer, hafter, hvalue⟩ | ⟨hanswer, hnone, slot, hlist⟩
    · rw [hanswer]
      rw [hreleased] at hvalue
      refine ⟨[value], hvalue, ?_⟩
      rw [cells_congr (hafter.trans hlayout)]
      exact .exhausted hland
    · rw [hanswer]
      refine .of_released_eq (hnone.trans hreleased) ?_
      rw [hcells, cells, hlist]
      exact .create slot hland path.gap
  · obtain ⟨hland, hlayout, hreleased, hcells⟩ := of_seek_node hseek
    cases policy with
    | overwrite =>
      simp only [perform, insert, hseek]
      refine .of_released_eq hreleased ?_
      rw [hcells, cells_withTree, Tree.toList_node_under]
      exact .overwrite _ cell _ hland
    | reject =>
      simp only [perform, insert, hseek]
      have hsame : (after.release [value]).cells = snapshot.cells := cells_congr hlayout
      refine ⟨[value], ?_, ?_⟩
      · rw [released_release, hreleased]
      rw [hsame]
      exact .reject hland (hcells ▸ List.mem_append_cons_self)

theorem affected_remove :
    Affected comparator (.remove key : Operation τ K V) snapshot
      (snapshot.perform comparator (.remove key)) := by
  rcases hseek : snapshot.seek comparator key with
    ⟨⟨_ | ⟨color, left, cell, right⟩, path⟩, after⟩
  all_goals simp only [perform, remove, hseek]
  · obtain ⟨hland, hlayout, hreleased, -⟩ := of_seek_nil hseek
    exact .of_reads hlayout hreleased (.removeMissing hland)
  · obtain ⟨hland, -, hreleased, hcells⟩ := of_seek_node hseek
    obtain ⟨hentry, hlist⟩ := after.toList_erase color left cell right path
    refine .of_released_eq hreleased ?_
    rw [List.append_assoc (path.before ++ left.toList)] at hlist
    rw [hentry, hcells, cells, hlist]
    exact .remove _ cell _ hland

end

section

variable (comparator : Comparator σ K) (snapshot : Snapshot σ K V)

theorem affected_outermost (side : Side) :
    Affected comparator (.outermost side : Operation τ K V) snapshot
      (snapshot.perform comparator (.outermost side)) := by
  rcases hspine : snapshot.layout.tree.spine side [] with _ | ⟨frame, path⟩
  all_goals simp only [perform, outermost, hspine]
  · refine .of_reads rfl rfl (.outermostMissing ?_)
    rw [cells, Tree.eq_nil_of_spine_eq_nil hspine]
    rfl
  · exact .of_reads rfl rfl (.outermost (Tree.toList_of_spine_eq_cons hspine))

theorem affected_pop (side : Side) :
    Affected comparator (.pop side : Operation τ K V) snapshot
      (snapshot.perform comparator (.pop side)) := by
  rcases hspine : snapshot.layout.tree.spine side [] with _ | ⟨frame, path⟩
  all_goals simp only [perform, pop, hspine]
  · refine .of_reads rfl rfl (.popMissing ?_)
    rw [cells, Tree.eq_nil_of_spine_eq_nil hspine]
    rfl
  · have hcells : (snapshot.eraseFrame .nil frame path).2.cells = _ :=
      (snapshot.toList_erase frame.color (frame.left .nil) frame.entry (frame.right .nil) path).2
    refine .of_released_eq rfl ?_
    rw [hcells, cells, Tree.toList_of_spine_eq_cons hspine]
    exact .pop frame.entry _

theorem affected_clear :
    Affected comparator (.clear : Operation τ K V) snapshot
      (snapshot.perform comparator .clear) := by
  have hvalues := snapshot.layout.tree.values_perm
  rw [← Layout.values_clear] at hvalues
  have hnil : (snapshot.perform comparator (.clear : Operation τ K V)).2.cells = [] :=
    congrArg Tree.toList snapshot.layout.tree_clear
  refine ⟨snapshot.layout.clear.1.1, rfl, ?_⟩
  rw [hnil]
  exact .clear hvalues

end

/-! ### Cursors and filters -/

section

variable {place : Path (Cell K V)} {below : Tree (Cell K V)} {frame : Frame (Cell K V)}
  {up : Path (Cell K V)} {removed : K × V}

/-- A place of the tree parts the cells. -/
theorem cells_eq_append (htree : Tree.nil.under path = snapshot.layout.tree) :
    snapshot.cells = path.before ++ path.after := by
  rw [cells, ← htree, Tree.toList_under, Tree.toList, List.append_nil]

/-- The next entry comes first among the cells after a place. -/
theorem cells_eq_of_climb (htree : Tree.nil.under path = snapshot.layout.tree)
    (hclimb : Path.climb .left path .nil = some (below, frame, up)) (cell : Cell K V) :
    snapshot.cells = path.before ++ frame.entry :: (Path.pass below frame cell up).after := by
  rw [cells_eq_append htree, Path.after_eq_cons_of_climb cell hclimb]

/-- Passing an entry and changing it changes one cell. -/
theorem cells_withTree_pass (hclimb : Path.climb .left path .nil = some (below, frame, up))
    (cell : Cell K V) :
    (snapshot.withTree (Tree.nil.under (Path.pass below frame cell up))).cells =
      path.before ++ cell :: (Path.pass below frame cell up).after := by
  rw [cells_withTree, Tree.toList_under, Path.before_pass cell hclimb, Tree.toList,
    List.append_nil, List.append_assoc, List.singleton_append]

/-- Removing the entry right before a place. -/
theorem cells_of_cut (hclimb : Path.climb .right path .nil = some (below, frame, up))
    (hcut : snapshot.cut comparator below frame up = ((removed, place), after)) :
    ∃ front, path.before = front ++ [frame.entry] ∧ after.cells = front ++ path.after ∧
      removed = frame.entry.entry ∧ after.released = snapshot.released := by
  obtain ⟨hentry, hlist, -⟩ := of_cut_eq hcut
  obtain ⟨hbefore, hafter⟩ := Path.of_climb_right_eq_some hclimb
  obtain ⟨hside, -⟩ := Path.of_climb_eq_some hclimb
  obtain ⟨side, color, cell, sibling⟩ := frame
  cases hside
  refine ⟨Path.before up ++ sibling.toList, ?_, ?_, hentry, ?_⟩
  · rw [hbefore, List.append_assoc]
  · rw [cells, hlist, List.append_assoc (Path.before up ++ _)]
    exact congrArg _ hafter.symm
  · exact (congrArg (fun result => result.2.released) hcut).symm

end

/-- Every use of a cursor has its effect and releases nothing. -/
theorem effect_move {place : Place K V} (htree : Tree.nil.under place.path = snapshot.layout.tree)
    (move : Cursor.Move V) :
    Cursor.Effect move place.cursor.yielded snapshot.cells
        (snapshot.move comparator place move).1
        (snapshot.move comparator place move).2.1.cursor.yielded
        (snapshot.move comparator place move).2.2.cells ∧
      (snapshot.move comparator place move).2.2.released = snapshot.released := by
  cases move with
  | next =>
    rcases hclimb : Path.climb .left place.path .nil with _ | ⟨below, frame, up⟩
    all_goals simp only [move, Place.next, Place.step, hclimb]
    · exact ⟨.nextFinished, trivial⟩
    · rw [cells_eq_of_climb htree hclimb frame.entry, Place.cursor_pass]
      exact ⟨.next _ frame.entry _, trivial⟩
  | replace value =>
    rcases hclimb : Path.climb .left place.path .nil with _ | ⟨below, frame, up⟩
    all_goals simp only [move, nextReplacing, hclimb]
    · exact ⟨.replaceFinished value, trivial⟩
    · rw [cells_eq_of_climb htree hclimb (frame.entry.withValue value), Place.cursor_pass,
        cells_withTree_pass hclimb]
      exact ⟨.replace _ frame.entry _ value, rfl⟩
  | hasNext => exact ⟨.hasNext _, rfl⟩
  | remove =>
    have hyielded := place.yielded_cursor
    rcases hlast : place.last? with _ | ⟨below, frame, up⟩
    · rw [hlast] at hyielded
      simp only [move, removeAt, hlast]
      rw [hyielded]
      exact ⟨.refuse, trivial⟩
    · rcases hcut : snapshot.cut comparator below frame up with ⟨⟨removed, path⟩, after⟩
      obtain ⟨front, hfront, hafter, rfl, hreleased⟩ :=
        cells_of_cut (Place.climb_of_last? hlast) hcut
      rw [hlast] at hyielded
      simp only [move, removeAt, hlast, hcut]
      rw [hyielded, cells_eq_append htree, hfront, hafter, List.append_assoc]
      exact ⟨.remove front frame.entry _, hreleased⟩

theorem effects_moves {place : Place K V}
    (htree : Tree.nil.under place.path = snapshot.layout.tree) (moves : List (Cursor.Move V)) :
    Cursor.Effects moves place.cursor.yielded snapshot.cells
        (snapshot.moves comparator place moves).1
        (snapshot.moves comparator place moves).2.2.cells ∧
      (snapshot.moves comparator place moves).2.2.released = snapshot.released := by
  induction moves generalizing snapshot place with
  | nil => exact ⟨.nil, rfl⟩
  | cons move moves ih =>
    obtain ⟨heffect, hreleased⟩ := effect_move htree move
    obtain ⟨heffects, hrest⟩ := ih (nil_under_move htree move)
    exact ⟨.cons heffect heffects, hrest.trans hreleased⟩

/-- A filter visits the cells after a place, and starts again where it is led after a
removal. -/
theorem sifts_retain (comparator : Comparator σ K) (keep : K → V → StateM τ (Bool × V))
    (htree : Tree.nil.under path = snapshot.layout.tree) (state : τ) :
    ∃ released : List V,
      (snapshot.retain comparator keep path state).2.released = snapshot.released ++ released ∧
      Operation.Sifts keep state snapshot.cells (snapshot.retain comparator keep path state).1
        (snapshot.retain comparator keep path state).2.cells released := by
  refine retain_induction comparator keep
    (motive := fun _ snapshot state result => ∃ released : List V,
      result.2.released = snapshot.released ++ released ∧
        Operation.Sifts keep state snapshot.cells result.1 result.2.cells released)
    ?_ ?_ ?_ htree state
  · intro path snapshot state _
    exact ⟨[], Array.appendList_nil.symm, .done⟩
  · intro path snapshot state below frame up value state' result htree hclimb hkeep passed hrest
    let cell := frame.entry.withValue value
    obtain ⟨released, hreleased, hsifts⟩ := hrest
    have hvisited : (snapshot.withTree (Tree.nil.under passed)).cells = _ :=
      cells_withTree_pass hclimb cell
    rw [hvisited] at hsifts
    rw [cells_eq_of_climb htree hclimb cell]
    exact ⟨released, hreleased, .keeps _ frame.entry _ hkeep hsifts⟩
  · intro path snapshot state below frame up value state' removed place after result htree hclimb
      hkeep cell visited hcut hrest
    obtain ⟨released, hreleased, hsifts⟩ := hrest
    have hlast : Path.climb .right (Path.pass below frame cell up) .nil = _ :=
      Path.climb_right_pass cell
    obtain ⟨front, hfront, hafter, rfl, hsame⟩ := cells_of_cut hlast hcut
    -- what lies before the visited cell lay before the place
    obtain rfl : front = path.before :=
      (List.append_inj' (hfront.symm.trans (Path.before_pass cell hclimb)) rfl).1
    have hcells : (after.release [value]).cells = _ := hafter
    have hvisited : visited.released = snapshot.released := rfl
    rw [cells_eq_of_climb htree hclimb cell]
    refine ⟨value :: released, ?_, .drops _ frame.entry _ hkeep (hcells ▸ hsifts)⟩
    rw [hreleased, released_release, hsame, hvisited, Array.appendList_cons, Array.appendList_nil,
      ← Array.appendList_cons]
    rfl

/-- Every operation has its effect. -/
theorem effect (comparator : Comparator σ K) (operation : Operation τ K V)
    (snapshot : Snapshot σ K V) :
    Affected comparator operation snapshot (snapshot.perform comparator operation) := by
  have htree := Tree.nil_under_spine .left snapshot.layout.tree []
  cases operation with
  | insert key value policy => exact affected_insert comparator key snapshot value policy
  | get key => exact affected_get comparator key snapshot
  | update key change => exact affected_update comparator key snapshot change
  | contains key => exact affected_contains comparator key snapshot
  | remove key => exact affected_remove comparator key snapshot
  | outermost side => exact affected_outermost comparator snapshot side
  | pop side => exact affected_pop comparator snapshot side
  | clear => exact affected_clear comparator snapshot
  | length =>
    simp only [perform, ← Tree.length_toList]
    exact .of_reads rfl rfl .length
  | isEmpty =>
    have hempty : (snapshot.layout.tree.size == 0) = snapshot.cells.isEmpty := by
      rw [cells, ← Tree.length_toList]
      cases snapshot.layout.tree.toList <;> rfl
    simp only [perform, hempty]
    exact .of_reads rfl rfl .isEmpty
  | height => exact .of_reads rfl rfl (.height _)
  | capacity => exact .of_reads rfl rfl (.capacity _)
  | entries => exact .of_reads rfl rfl .entries
  | iterate view steps => exact .of_reads rfl rfl .iterate
  | traverse moves =>
    have hstart : (Place.start snapshot.layout.tree).cursor.yielded = none := rfl
    have hplace : Tree.nil.under (Place.start snapshot.layout.tree).path =
        snapshot.layout.tree := htree
    obtain ⟨heffects, hreleased⟩ := effects_moves hplace moves
    rw [hstart] at heffects
    exact .of_released_eq hreleased (.traverse heffects)
  | retain keep state =>
    obtain ⟨released, hreleased, hsifts⟩ := sifts_retain comparator keep htree state
    exact ⟨released, hreleased, .retain hsifts⟩
  | copy => exact .of_released_eq rfl (.reads .copy)

end Snapshot

/-! ## Reachable trees -/

theorem LinkedTree.LaidOut.lists {linked : LinkedTree K V} {layout : Layout K V}
    (h : linked.LaidOut layout) : linked.Lists layout.tree.toList :=
  ⟨⟨layout.tree, h.depicts, rfl⟩, LinkedTree.entries_eq_ok h⟩

/-- Whatever the comparator answers, every operation on a reachable tree succeeds and has its
effect on the cells in order: a new cell comes into the empty place at which the descent for
its key ends, and only the cell that was found, the outermost one, or the one that a cursor
yielded last gets another value or is removed. All others stay, in their order. -/
theorem Engine.cells_in_order {context : Context σ K V} (h : context.tree.Reachable)
    (comparator : Comparator σ K) :
    ∃ cells land,
      context.tree.Lists cells ∧
      (∀ key, ∃ after, descend comparator key context = .ok (land key) after) ∧
      ∀ operation : Operation τ K V, ∃ answer after cells', ∃ released : List V,
        operation.perform comparator context = .ok answer after ∧
        after.tree.Lists cells' ∧
        after.released = context.released ++ released ∧
        operation.Effect land cells answer cells' released ∧
        ((cells.map Cell.tag).Sublist (cells'.map Cell.tag) ∨
          (cells'.map Cell.tag).Sublist (cells.map Cell.tag)) := by
  obtain ⟨layout, hlaid⟩ := h.exists_laidOut
  let snapshot := context.snapshot layout
  refine ⟨snapshot.cells, snapshot.lands comparator, hlaid.lists, ?_, ?_⟩
  · intro key
    obtain ⟨_, hdescend, -⟩ := (Performs.descend comparator key snapshot).of_context hlaid
    exact ⟨_, hdescend⟩
  · intro operation
    obtain ⟨_, hperform, hafter⟩ :=
      (Performs.operation comparator operation snapshot).of_context hlaid
    obtain ⟨released, hreleased, heffect⟩ := snapshot.effect comparator operation
    exact ⟨_, _, _, released, hperform, hafter.lists, hreleased, heffect, heffect.sublist⟩

/-- Removing a key with a comparator that changes its mind: the descent ends in the slot of the key,
and the cell there is removed from the four that were in no order. -/
theorem Engine.cells_in_order_flipping :
    ∃ answers context cells land searched after cells',
      run (Operation.perform (Comparator.flipping 3 compare))
        [.insert 1 10 .overwrite, .insert 2 20 .reject, .insert 3 30 .overwrite,
          .insert 2 40 .reject, (.insert 5 50 .overwrite : Operation Unit Nat Nat)]
        (.ofArena (Arena.empty ⟨8, 24⟩ : Arena Nat Nat) 0) = .ok answers context ∧
      context.tree.Reachable ∧
      context.tree.Lists cells ∧
      cells.map Cell.entry = [(5, 50), (1, 10), (2, 20), (3, 30)] ∧
      descend (Comparator.flipping 3 compare) 2 context = .ok (land 2) searched ∧
      land 2 = .found 1 ∧
      (Operation.remove 2 : Operation Unit Nat Nat).perform (Comparator.flipping 3 compare)
        context = .ok (.entry (.ok (2, 20))) after ∧
      after.tree.Lists cells' ∧
      cells'.map Cell.entry = [(5, 50), (1, 10), (3, 30)] ∧
      after.released = context.released ∧
      (Operation.remove 2 : Operation Unit Nat Nat).Effect land cells (.entry (.ok (2, 20))) cells'
        [] := by
  have hnew : Arena.withCapacity ⟨8, 24⟩ 0 = .ok (Arena.empty ⟨8, 24⟩ : Arena Nat Nat) := rfl
  obtain ⟨_, context, hrun, hreachable, -⟩ :=
    exists_reachable_run hnew (Comparator.flipping 3 compare) 0
      [.insert 1 10 .overwrite, .insert 2 20 .reject, .insert 3 30 .overwrite,
        .insert 2 40 .reject, (.insert 5 50 .overwrite : Operation Unit Nat Nat)]
  obtain ⟨cells, land, hcells, hland, heffects⟩ :=
    cells_in_order (τ := Unit) hreachable (Comparator.flipping 3 compare)
  obtain ⟨searched, hsearched⟩ := hland 2
  obtain ⟨answer, after, cells', released, hperform, hafter, hreleased, heffect, -⟩ :=
    heffects (.remove 2)
  obtain rfl : released = [] := by cases heffect <;> rfl
  -- the entries before and after, the slot and the answer are computed
  have hentries := holds_of_ok hrun
    (fun _ context => context.tree.entries = .ok [(5, 50), (1, 10), (2, 20), (3, 30)])
    (by decide +kernel)
  have hfound := holds_after hrun hsearched (fun _ found _ => found = .found 1) (by decide +kernel)
  have hremoves := holds_of_ok hrun
    (fun _ context => Ends (remove (Comparator.flipping 3 compare) 2) context fun removed _ =>
      removed = .ok (2, 20))
    (by decide +kernel)
  obtain ⟨_, _, hremove, rfl⟩ := ends_iff.1 hremoves
  cases hperform.symm.trans (bind_of_ok hremove)
  have hentries' := holds_after hrun hremove
    (fun _ _ after => after.tree.entries = .ok [(5, 50), (1, 10), (3, 30)]) (by decide +kernel)
  exact ⟨_, context, cells, land, searched, after, cells', hrun, hreachable, hcells,
    Except.ok.inj (hcells.entries.symm.trans hentries), hsearched, hfound, hperform, hafter,
    Except.ok.inj (hafter.entries.symm.trans hentries'), hreleased.trans Array.appendList_nil,
    heffect⟩

end RedBlack
