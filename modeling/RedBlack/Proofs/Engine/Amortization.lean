import Mathlib.Algebra.GroupWithZero.Nat
import RedBlack.Proofs.Engine.Runs
import RedBlack.Proofs.Tree.Potential

/-!
# Amortized Cost of Rebalancing

One repair may recolour nodes, or push a shortage up, along a whole path to the root. Over a
run these steps are few: the potential of the tree pays for them, and it grows by at most two
units with each node that is created and by at most one with each node that is removed
(`Snapshot.Amortizes`). No tree has less potential than an empty one, so a run on a new
container takes at most twice as many such steps as it creates nodes, and one more for each
node that it removes; those that are released all at once cost nothing
(`Engine.ascents_le_of_run`).

`Operation.tally` counts these nodes by the answer of an operation. The counts are exact: every
node that was created is stored, was removed, or was released with all others.
-/

namespace RedBlack

open RedBlack.Tree (Frame Path)

variable {σ τ K V α : Type}

/-! ## Counting nodes -/

/-- How many nodes an operation creates and takes away. -/
structure Tally where
  /-- The nodes created. -/
  created : Nat := 0
  /-- The nodes removed one at a time. -/
  removed : Nat := 0
  /-- The nodes released all at once. -/
  cleared : Nat := 0

namespace Operation

/-- A node is created if the entry was stored and replaced none. -/
def created : Except Error (Option V) → Nat
  | .ok none => 1
  | _ => 0

/-- A node is removed unless there was an error. -/
def removed : Except Error α → Nat
  | .ok _ => 1
  | .error _ => 0

end Operation

/-- The nodes removed in one use of a cursor. -/
def Cursor.Outcome.removals : Cursor.Outcome K V → Nat
  | .removed entry => Operation.removed entry
  | _ => 0

/-- The nodes that an operation with a given answer creates and takes away, where the engine
lets go of `released` values: a filter releases the value of each node that it removes, and so
does clearing. -/
def Operation.tally (released : Nat) : Operation τ K V → Answer τ K V → Tally
  | .insert _ _ _, .stored stored => { created := created stored }
  | .remove _, .entry found => { removed := removed found }
  | .pop _, .entry found => { removed := removed found }
  | .traverse _, .traversed outcomes =>
    { removed := (outcomes.map Cursor.Outcome.removals).sum }
  | .retain _ _, _ => { removed := released }
  | .clear, _ => { cleared := released }
  | _, _ => {}

/-- Perform an operation and count the nodes that it creates and takes away. -/
def Engine.meter (comparator : Comparator σ K) (operation : Operation τ K V) :
    EngineM σ K V Tally := do
  let before ← MonadState.get
  let answer ← operation.perform comparator
  let after ← MonadState.get
  return operation.tally (after.released.size - before.released.size) answer

/-! ## Amortized steps -/

namespace Snapshot

variable (comparator : Comparator σ K) (snapshot : Snapshot σ K V)

/-- The tree follows the colouring rules. -/
def InBalance : Prop :=
  ∃ n, snapshot.layout.tree.Balanced .black n

/-- The repeated steps so far, and those that the tree can still pay for. -/
def charge : Nat :=
  Event.ascents snapshot.trace.toList + snapshot.layout.tree.potential

/-- The step from one snapshot to another creates, removes and clears so many nodes, and costs
at most two units for each created and one for each removed. -/
structure Amortizes (before after : Snapshot σ K V) (created removed cleared : Nat) : Prop where
  /-- The tree stays in balance. -/
  balanced : after.InBalance
  /-- The counts are those of nodes. -/
  size : after.layout.tree.size + removed + cleared = before.layout.tree.size + created
  /-- The nodes that come and go pay for the steps. -/
  charge : after.charge ≤ before.charge + 2 * created + removed

variable {comparator snapshot} {before mid after : Snapshot σ K V}

theorem size_released_release (snapshot : Snapshot σ K V) (values : List V) :
    (snapshot.release values).released.size = snapshot.released.size + values.length := by
  rw [release, ← Array.length_toList, Array.toList_appendList, List.length_append,
    Array.length_toList]

theorem ascents_report (snapshot : Snapshot σ K V) (events : List Event) :
    Event.ascents (snapshot.report events).trace.toList =
      Event.ascents snapshot.trace.toList + Event.ascents events := by
  rw [report, Array.toList_appendList, Event.ascents_append]

namespace Amortizes

/-- One step after the other. -/
theorem trans {created removed cleared created' removed' cleared' : Nat}
    (h : Amortizes before mid created removed cleared)
    (h' : Amortizes mid after created' removed' cleared') :
    Amortizes before after (created + created') (removed + removed') (cleared + cleared') where
  balanced := h'.balanced
  size := by
    have hsize := h.size
    have hsize' := h'.size
    omega
  charge := by
    have hcharge := h.charge
    have hcharge' := h'.charge
    omega

/-- A step that changes no colour and reports no repair costs nothing. -/
theorem of_alike (h : before.InBalance) (htree : after.layout.tree.Alike before.layout.tree)
    (htrace : Event.ascents after.trace.toList = Event.ascents before.trace.toList) :
    Amortizes before after 0 0 0 where
  balanced := by
    obtain ⟨n, hn⟩ := h
    exact ⟨n, htree.balanced_iff.2 hn⟩
  size := htree.size_eq
  charge := by
    rw [Snapshot.charge, Snapshot.charge, htree.potential_eq, htrace]
    omega

theorem refl (h : snapshot.InBalance) : Amortizes snapshot snapshot 0 0 0 :=
  of_alike h rfl rfl

/-- A change of the layout that pays for the repair that it reports. -/
theorem of_report {layout : Layout K V} {events : List Event} {created removed cleared : Nat}
    (hbalanced : ∃ n, layout.tree.Balanced .black n)
    (hsize : layout.tree.size + removed + cleared = snapshot.layout.tree.size + created)
    (hcharge : Event.ascents events + layout.tree.potential ≤
      snapshot.layout.tree.potential + 2 * created + removed) :
    Amortizes snapshot (Snapshot.report { snapshot with layout } events)
      created removed cleared where
  balanced := hbalanced
  size := hsize
  charge := by
    rw [Snapshot.charge, Snapshot.charge, ascents_report]
    simp only [Snapshot.report]
    omega

/-- Releasing values costs nothing. -/
theorem release {created removed cleared : Nat}
    (h : Amortizes before after created removed cleared) (values : List V) :
    Amortizes before (after.release values) created removed cleared :=
  ⟨h.balanced, h.size, h.charge⟩

end Amortizes

/-! ### Keys and positions -/

section

variable {color : Color} {left right : Tree (Cell K V)} {cell : Cell K V}
  {path : Path (Cell K V)} (h : snapshot.InBalance)

include h

/-- The descent for a key changes nothing but the memory of the comparator. -/
theorem amortizes_seek (comparator : Comparator σ K) (key : K) :
    Amortizes snapshot (snapshot.seek comparator key).2 0 0 0 :=
  .of_alike h rfl rfl

/-- Putting another value into a node costs nothing. -/
theorem amortizes_replace (htree : (Tree.node color left cell right).under path =
    snapshot.layout.tree) (value : V) :
    Amortizes snapshot
      (snapshot.withTree ((Tree.node color left (cell.withValue value) right).under path))
      0 0 0 := by
  refine .of_alike h ?_ rfl
  have hnode : left.under (⟨.left, color, cell, right⟩ :: path) = snapshot.layout.tree := htree
  rw [← hnode]
  exact Tree.alike_under_replace left ⟨.left, color, cell, right⟩ (cell.withValue value) path

/-- Storing an entry in an empty place creates a node, unless storage is refused. -/
theorem amortizes_insertAt (htree : Tree.nil.under path = snapshot.layout.tree) (key : K)
    (value : V) :
    Amortizes snapshot (snapshot.insertAt key path value).2
      (Operation.created (snapshot.insertAt key path value).1) 0 0 := by
  obtain ⟨n, hn⟩ := h
  simp only [insertAt, Layout.insert]
  cases hallot : Arena.allot snapshot.layout.tree.size snapshot.layout.vacated
      snapshot.layout.capacity snapshot.layout.room with
  | error cause =>
    -- a refusal is reported, but is no repair
    have hreport : Amortizes snapshot (snapshot.report [.refused cause 1]) 0 0 0 :=
      .of_report ⟨n, hn⟩ rfl (Nat.le_of_eq (Nat.zero_add _))
    exact hreport.release [value]
  | ok slot =>
    obtain ⟨id, vacated, capacity⟩ := slot
    let leaf : Tree (Cell K V) := .node .red .nil ⟨id, key, value⟩ .nil
    rw [← htree] at hn
    have hsize : (leaf.repairRed path).1.size = snapshot.layout.tree.size + 1 := by
      rw [← htree, ← Tree.length_toList, Tree.toList_repairRed, ← Tree.length_toList,
        Tree.toList_under, Tree.toList_under]
      simp only [leaf, Tree.toList, List.length_append, List.length_cons, List.length_nil]
      omega
    have hcharge : Event.ascents (leaf.repairRed path).2 + (leaf.repairRed path).1.potential ≤
        snapshot.layout.tree.potential + 2 := by
      rw [← htree]
      exact Tree.ascents_repairRed_leaf_add_potential_le hn
    exact .of_report (Tree.balanced_repairRed_leaf hn) hsize hcharge

/-- Taking a node out removes one. -/
theorem amortizes_erase
    (htree : (Tree.node color left cell right).under path = snapshot.layout.tree) :
    Amortizes snapshot (snapshot.erase color left cell right path).2 0 1 0 := by
  obtain ⟨n, hn⟩ := h
  rw [← htree] at hn
  have hsize : (Tree.erase color left right path).1.size + 1 = snapshot.layout.tree.size := by
    rw [← htree, ← Tree.length_toList, Tree.toList_erase, ← Tree.length_toList, Tree.toList_under]
    simp only [Tree.toList, List.length_append, List.length_cons]
    omega
  have hcharge : Event.ascents (Tree.erase color left right path).2 +
      (Tree.erase color left right path).1.potential ≤ snapshot.layout.tree.potential + 1 := by
    rw [← htree]
    exact Tree.ascents_erase_add_potential_le hn
  exact .of_report (Tree.balanced_erase hn) hsize hcharge

theorem amortizes_eraseFrame {below : Tree (Cell K V)} {frame : Frame (Cell K V)}
    (htree : below.under (frame :: path) = snapshot.layout.tree) :
    Amortizes snapshot (snapshot.eraseFrame below frame path).2 0 1 0 := by
  rw [Tree.under_cons, Frame.close_eq_node] at htree
  exact amortizes_erase h htree

theorem amortizes_insert (comparator : Comparator σ K) (key : K) (value : V)
    (policy : DuplicatePolicy) :
    Amortizes snapshot (snapshot.insert comparator key value policy).2
      (Operation.created (snapshot.insert comparator key value policy).1) 0 0 := by
  have hdescent := amortizes_seek h comparator key
  rw [insert]
  rcases hseek : snapshot.seek comparator key with
    ⟨⟨_ | ⟨color, left, cell, right⟩, path⟩, after⟩
  all_goals
    obtain ⟨htree, -⟩ := of_seek_eq hseek
    rw [hseek] at hdescent
  · have hstore := hdescent.trans (amortizes_insertAt hdescent.balanced htree key value)
    rwa [Nat.zero_add] at hstore
  · cases policy with
    | overwrite => exact hdescent.trans (amortizes_replace hdescent.balanced htree value)
    | reject => exact hdescent.release [value]

theorem amortizes_get (comparator : Comparator σ K) (key : K) :
    Amortizes snapshot (snapshot.get comparator key).2 0 0 0 := by
  have hdescent := amortizes_seek h comparator key
  rw [get]
  rcases hseek : snapshot.seek comparator key with
    ⟨⟨_ | ⟨color, left, cell, right⟩, path⟩, after⟩
  all_goals
    rw [hseek] at hdescent
    exact hdescent

theorem amortizes_contains (comparator : Comparator σ K) (key : K) :
    Amortizes snapshot (snapshot.contains comparator key).2 0 0 0 := by
  have hdescent := amortizes_seek h comparator key
  rw [contains]
  rcases hseek : snapshot.seek comparator key with
    ⟨⟨_ | ⟨color, left, cell, right⟩, path⟩, after⟩
  all_goals
    rw [hseek] at hdescent
    exact hdescent

theorem amortizes_update (comparator : Comparator σ K) (key : K) (change : V → V) :
    Amortizes snapshot (snapshot.update comparator key change).2 0 0 0 := by
  have hdescent := amortizes_seek h comparator key
  rw [update]
  rcases hseek : snapshot.seek comparator key with
    ⟨⟨_ | ⟨color, left, cell, right⟩, path⟩, after⟩
  all_goals rw [hseek] at hdescent
  · exact hdescent
  · obtain ⟨htree, -⟩ := of_seek_eq hseek
    exact hdescent.trans (amortizes_replace hdescent.balanced htree _)

theorem amortizes_remove (comparator : Comparator σ K) (key : K) :
    Amortizes snapshot (snapshot.remove comparator key).2 0
      (Operation.removed (snapshot.remove comparator key).1) 0 := by
  have hdescent := amortizes_seek h comparator key
  rw [remove]
  rcases hseek : snapshot.seek comparator key with
    ⟨⟨_ | ⟨color, left, cell, right⟩, path⟩, after⟩
  all_goals rw [hseek] at hdescent
  · exact hdescent
  · obtain ⟨htree, -⟩ := of_seek_eq hseek
    exact hdescent.trans (amortizes_erase hdescent.balanced htree)

theorem amortizes_pop (side : Side) :
    Amortizes snapshot (snapshot.pop side).2 0 (Operation.removed (snapshot.pop side).1) 0 := by
  rw [pop]
  rcases hspine : snapshot.layout.tree.spine side [] with _ | ⟨frame, path⟩
  · exact .refl h
  · have htree : Tree.nil.under (frame :: path) = snapshot.layout.tree := by
      rw [← hspine, Tree.nil_under_spine, Tree.under_nil]
    exact amortizes_eraseFrame h htree

omit h in
/-- Clearing releases every node without a repair. -/
theorem amortizes_clear (snapshot : Snapshot σ K V) :
    Amortizes snapshot snapshot.clear 0 0
      (snapshot.clear.released.size - snapshot.released.size) := by
  have hsize : snapshot.clear.released.size - snapshot.released.size =
      snapshot.layout.tree.size := by
    have hvalues := snapshot.layout.tree.values_perm.length_eq
    rw [List.length_map, Tree.length_toList, ← Layout.values_clear] at hvalues
    rw [clear, size_released_release, ← hvalues]
    exact Nat.add_sub_cancel_left ..
  have hnil := snapshot.layout.tree_clear
  have hevents : Event.ascents snapshot.layout.clear.1.2 = 0 := by
    rw [Layout.clear]
    split <;> rfl
  have hreport : Amortizes snapshot
      (Snapshot.report { snapshot with layout := snapshot.layout.clear.2 }
        snapshot.layout.clear.1.2) 0 0 snapshot.layout.tree.size := by
    apply Amortizes.of_report
    · rw [hnil]
      exact ⟨0, .nil⟩
    · rw [hnil]
      exact Nat.zero_add _
    · rw [hnil, hevents]
      exact Nat.zero_le _
  rw [hsize]
  exact hreport.release _

end

/-! ### Cursors and filters -/

section

variable {path up : Path (Cell K V)} {below : Tree (Cell K V)} {frame : Frame (Cell K V)}
  (h : snapshot.InBalance)

include h

/-- Passing an entry, and perhaps putting another one in its place, costs nothing. -/
theorem amortizes_pass (htree : Tree.nil.under path = snapshot.layout.tree)
    (hclimb : Path.climb .left path .nil = some (below, frame, up)) (cell : Cell K V) :
    Amortizes snapshot (snapshot.withTree (Tree.nil.under (Path.pass below frame cell up)))
      0 0 0 := by
  obtain ⟨hside, hunder⟩ := Path.of_climb_eq_some hclimb
  refine .of_alike h ?_ rfl
  rw [← htree, hunder, withTree, Path.nil_under_pass cell hside]
  exact Tree.alike_under_replace below frame cell up

/-- Looking for the place of a removed key is no repair. -/
theorem amortizes_trail (comparator : Comparator σ K) (key : K) :
    Amortizes snapshot (snapshot.trail comparator key).2 0 0 0 :=
  .of_alike h rfl ((ascents_report _ _).trans (Nat.add_zero _))

theorem amortizes_cut {entry : K × V} (htree : below.under (frame :: up) = snapshot.layout.tree)
    (hcut : snapshot.cut comparator below frame up = ((entry, path), after)) :
    Amortizes snapshot after 0 1 0 := by
  have herase := amortizes_eraseFrame h htree
  have hrest := herase.trans (amortizes_trail herase.balanced comparator
    (snapshot.eraseFrame below frame up).1.1)
  have hafter : after = (snapshot.cut comparator below frame up).2 := by rw [hcut]
  rw [hafter]
  exact hrest

/-- A use of a cursor removes a node if it says so. -/
theorem amortizes_move (comparator : Comparator σ K) {place : Place K V}
    (htree : Tree.nil.under place.path = snapshot.layout.tree) (move : Cursor.Move V) :
    Amortizes snapshot (snapshot.move comparator place move).2.2 0
      (snapshot.move comparator place move).1.removals 0 := by
  cases move with
  | next => exact .refl h
  | replace value =>
    rw [Snapshot.move, nextReplacing]
    rcases hclimb : Path.climb .left place.path .nil with _ | ⟨below, frame, up⟩
    · exact .refl h
    · exact amortizes_pass h htree hclimb _
  | hasNext => exact .refl h
  | remove =>
    rw [Snapshot.move, removeAt]
    rcases hlast : place.last? with _ | ⟨below, frame, up⟩
    · exact .refl h
    · have hnode := (Path.of_climb_eq_some (Place.climb_of_last? hlast)).2.symm.trans htree
      rcases hcut : snapshot.cut comparator below frame up with ⟨⟨entry, path⟩, after⟩
      simp only [hcut]
      exact amortizes_cut h hnode hcut

theorem amortizes_moves (comparator : Comparator σ K) {place : Place K V}
    (htree : Tree.nil.under place.path = snapshot.layout.tree) (moves : List (Cursor.Move V)) :
    Amortizes snapshot (snapshot.moves comparator place moves).2.2 0
      ((snapshot.moves comparator place moves).1.map Cursor.Outcome.removals).sum 0 := by
  induction moves generalizing snapshot place with
  | nil => exact .refl h
  | cons move moves ih =>
    have hfirst := amortizes_move h comparator htree move
    exact hfirst.trans (ih hfirst.balanced (nil_under_move htree move))

/-- A filter removes as many nodes as it releases values. -/
theorem amortizes_retain (comparator : Comparator σ K) (keep : K → V → StateM τ (Bool × V))
    (htree : Tree.nil.under path = snapshot.layout.tree) (state : τ) :
    ∃ dropped, (snapshot.retain comparator keep path state).2.released.size =
        snapshot.released.size + dropped ∧
      Amortizes snapshot (snapshot.retain comparator keep path state).2 0 dropped 0 := by
  -- a step may assume that the tree before it is in balance
  refine retain_induction comparator keep
    (motive := fun _ snapshot _ result => snapshot.InBalance → ∃ dropped,
      result.2.released.size = snapshot.released.size + dropped ∧
        Amortizes snapshot result.2 0 dropped 0)
    ?_ ?_ ?_ htree state h
  · intro path snapshot state _ h
    exact ⟨0, rfl, .refl h⟩
  -- passing the entry costs nothing
  · intro path snapshot state below frame up value state' result htree hclimb _ passed hrest h
    have hvisit := amortizes_pass h htree hclimb (frame.entry.withValue value)
    obtain ⟨dropped, hreleased, hrest⟩ := hrest hvisit.balanced
    refine ⟨dropped, hreleased, ?_⟩
    rw [← Nat.zero_add dropped]
    exact hvisit.trans hrest
  -- and the removal after it pays for itself
  · intro path snapshot state below frame up value state' removed place after result htree hclimb _
      cell visited hcut hrest h
    have hvisit : Amortizes snapshot visited 0 0 0 := amortizes_pass h htree hclimb cell
    have hnode : frame.sibling.under (⟨.right, frame.color, cell, below⟩ :: up) =
        visited.layout.tree := (Tree.nil_under_spine ..).symm
    have hremove := (hvisit.trans (amortizes_cut hvisit.balanced hnode hcut)).release [removed.2]
    obtain ⟨dropped, hreleased, hrest⟩ := hrest hremove.balanced
    have hsame : visited.released = after.released :=
      congrArg (fun result => result.2.released) hcut
    have hone : (after.release [removed.2]).released.size = snapshot.released.size + 1 := by
      rw [size_released_release, ← hsame]
      rfl
    rw [hone, Nat.add_assoc] at hreleased
    exact ⟨1 + dropped, hreleased, hremove.trans hrest⟩

end

/-! ### Operations -/

/-- Every operation takes as many repeated steps as the nodes that come and go can pay for. -/
theorem amortizes_perform (h : snapshot.InBalance) (comparator : Comparator σ K)
    (operation : Operation τ K V) :
    let (answer, after) := snapshot.perform comparator operation
    let tally := operation.tally (after.released.size - snapshot.released.size) answer
    Amortizes snapshot after tally.created tally.removed tally.cleared := by
  have hstart : Tree.nil.under (Place.start snapshot.layout.tree).path = snapshot.layout.tree :=
    Tree.nil_under_spine .left snapshot.layout.tree []
  cases operation with
  | insert key value policy => exact amortizes_insert h comparator key value policy
  | get key => exact amortizes_get h comparator key
  | update key change => exact amortizes_update h comparator key change
  | contains key => exact amortizes_contains h comparator key
  | remove key => exact amortizes_remove h comparator key
  | pop side => exact amortizes_pop h side
  | clear => exact amortizes_clear snapshot
  | traverse moves => exact amortizes_moves h comparator hstart moves
  | retain keep state =>
    obtain ⟨dropped, hreleased, hretain⟩ := amortizes_retain h comparator keep hstart state
    have hdropped := Nat.sub_eq_of_eq_add' hreleased
    rw [← hdropped] at hretain
    exact hretain
  | copy => exact .of_alike h rfl rfl
  | _ => exact .refl h

/-- Perform an operation and count the nodes that it creates and takes away. -/
def meter (comparator : Comparator σ K) (operation : Operation τ K V)
    (snapshot : Snapshot σ K V) : Tally × Snapshot σ K V :=
  let (answer, after) := snapshot.perform comparator operation
  (operation.tally (after.released.size - snapshot.released.size) answer, after)

/-- Over a run, the steps and the nodes add up. -/
theorem amortizes_run (h : snapshot.InBalance) (comparator : Comparator σ K)
    (operations : List (Operation τ K V)) :
    let (tallies, after) := snapshot.run (meter comparator) operations
    Amortizes snapshot after (tallies.map Tally.created).sum (tallies.map Tally.removed).sum
      (tallies.map Tally.cleared).sum := by
  induction operations generalizing snapshot with
  | nil => exact .refl h
  | cons operation operations ih =>
    have hfirst := amortizes_perform h comparator operation
    exact hfirst.trans (ih hfirst.balanced)

end Snapshot

namespace Engine

theorem Performs.meter (comparator : Comparator σ K) (operation : Operation τ K V)
    (before : Snapshot σ K V) :
    Performs (Engine.meter comparator operation) before (before.meter comparator operation).2
      (before.meter comparator operation).1 := by
  intro tree hlaid
  obtain ⟨new, hperform, hnew⟩ := Performs.operation comparator operation before tree hlaid
  refine ⟨new, ?_, hnew⟩
  exact (bind_of_ok rfl).trans ((bind_of_ok hperform).trans (bind_of_ok rfl))

/-- In every run on a new container, whatever the comparator answers, the recolourings under a
red uncle and the shortages pushed up are together at most twice the number of nodes created
and one for each node removed. The nodes created are those stored in the end, those removed one
at a time, and those released all at once. -/
theorem ascents_le_of_run {room : Room} {capacity : Nat} {arena : Arena K V}
    (hnew : Arena.withCapacity room capacity = .ok arena) (comparator : Comparator σ K)
    (memory : σ) (operations : List (Operation τ K V)) :
    ∃ tallies context,
      run (meter comparator) operations (.ofArena arena memory) = .ok tallies context ∧
      context.tree.size + (tallies.map Tally.removed).sum + (tallies.map Tally.cleared).sum =
        (tallies.map Tally.created).sum ∧
      context.trace.count .recolored + context.trace.count .deficiencyPushed ≤
        2 * (tallies.map Tally.created).sum + (tallies.map Tally.removed).sum := by
  let start : Snapshot σ K V := .empty arena.capacity room memory
  obtain ⟨tree, hrun, hlaid⟩ :=
    (Performs.run (Performs.meter comparator) operations start).exists_eq_ok hnew
  have hstart : start.InBalance := ⟨0, .nil⟩
  have hamortizes := Snapshot.amortizes_run hstart comparator operations
  refine ⟨_, _, hrun, ?_, ?_⟩
  · have hsize := hamortizes.size
    rw [← hlaid.size] at hsize
    exact hsize.trans (Nat.zero_add _)
  · -- an empty tree has no potential, and what is left of it in the end is not needed
    have hcharge := hamortizes.charge
    have hzero : start.charge = 0 := rfl
    rw [hzero, Snapshot.charge, Event.ascents, Array.count_toList, Array.count_toList] at hcharge
    simp only [Snapshot.around]
    omega

/-- A run with a comparator that changes its mind, with removals of every kind. -/
theorem ascents_le_of_run_flipping :
    ∃ tallies context,
      run (meter (Comparator.flipping 3 compare))
        [.insert 1 10 .overwrite, .insert 2 20 .reject, .insert 3 30 .overwrite,
          .insert 4 40 .reject, .insert 5 50 .overwrite, .insert 6 60 .overwrite, .remove 2,
          .traverse [.next, .remove, .next, .remove], .pop .right,
          .retain (fun key value _ => ((key == 5, value), ())) (), .insert 7 70 .reject, .clear]
        (.ofArena (Arena.empty ⟨8, 24⟩ : Arena Nat Nat) 0) = .ok tallies context ∧
      context.tree.size + (tallies.map Tally.removed).sum + (tallies.map Tally.cleared).sum =
        (tallies.map Tally.created).sum ∧
      context.trace.count .recolored + context.trace.count .deficiencyPushed ≤
        2 * (tallies.map Tally.created).sum + (tallies.map Tally.removed).sum :=
  ascents_le_of_run (rfl : Arena.withCapacity ⟨8, 24⟩ 0 = .ok (Arena.empty ⟨8, 24⟩)) _ _ _

end Engine

end RedBlack
