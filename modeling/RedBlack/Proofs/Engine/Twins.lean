import RedBlack.Proofs.Engine.Container
import RedBlack.Proofs.Engine.Reachable
import RedBlack.Proofs.Linked.Skeleton

/-!
# Twins

A set and a map of the same keys, with comparators that answer alike. Both go through the same
operations, except that the map is given values, overwrites where the set refuses, and may put
other values in while it traverses or filters. No value is ever looked at, so after every step
the two have the same keys in the same slots, linked and coloured alike, with the same free list,
and their comparators were asked the same questions (`Engine.values_do_not_shape`).

How large the values are does show in storage: memory is short sooner, and slots of more than a
kilobyte are asked for one by one. So the two are compared as long as memory is short for neither,
and in capacity if storage grows alike (`Arena.GrowsLike`); `Engine.values_shape_storage` has what
happens otherwise.

`Snapshot.Twins` is the relation of the two runs. One lemma an operation says that it is kept;
only the insertion of a key that is called equal does not do the same on both sides, and what
the map replaces there is no part of the relation.
-/

namespace RedBlack

open RedBlack.Tree (Frame Path)

variable {σ τ K V : Type}

/-- The place without values. -/
def Place.skeleton (place : Place K V) : Place K Unit :=
  { path := place.path.map Cell.skeleton, removable := place.removable }

/-- What may be removed is the same without values. -/
theorem Place.last?_skeleton (place : Place K V) :
    place.skeleton.last? = place.last?.map fun (below, frame, up) =>
      (below.map Cell.skeleton, frame.map Cell.skeleton, Tree.Path.map Cell.skeleton up) := by
  rcases place with ⟨path, _ | _⟩
  · rfl
  · exact Path.climb_map Cell.skeleton .right path .nil

/-- The uses of a set's cursor and of a map's that go together: the map may also replace the
value that it yields. -/
inductive Cursor.Move.Twin : Cursor.Move Unit → Cursor.Move V → Prop
  | next : Twin .next .next
  | replace (value : V) : Twin .next (.replace value)
  | hasNext : Twin .hasNext .hasNext
  | remove : Twin .remove .remove

/-- Filters of a set and of a map that decide alike, by the key and what they remember. -/
def DecideAlike (keep : K → Unit → StateM τ (Bool × Unit)) (keep' : K → V → StateM τ (Bool × V)) :
    Prop :=
  ∀ key value state, (keep' key value state).1.1 = (keep key () state).1.1 ∧
    (keep' key value state).2 = (keep key () state).2

/-- As many slots fit into two arenas, and storage grows to the same least capacity in both. -/
def Arena.GrowsLike {W : Type} (arena : Arena K V) (other : Arena K W) : Prop :=
  arena.capacity = other.capacity ∧ arena.room.least = other.room.least

/-- Storage was refused for want of memory. -/
def Event.isShortage : Event → Bool
  | refused .memory _ => true
  | _ => false

/-- In what was reported, storage was never refused for want of memory. -/
def Event.MemorySuffices (trace : Array Event) : Prop :=
  ∀ event ∈ trace, event.isShortage = false

instance (trace : Array Event) : Decidable (Event.MemorySuffices trace) :=
  inferInstanceAs (Decidable (∀ event ∈ trace, event.isShortage = false))

namespace Snapshot

/-- Storing a key in an empty place finds enough memory if it reports no shortage. -/
theorem allot_ne_memory {snapshot : Snapshot σ K V} {key : K} {path : Path (Cell K V)} {value : V}
    (h : Event.MemorySuffices (snapshot.insertAt key path value).2.trace) :
    Arena.allot snapshot.layout.tree.size snapshot.layout.vacated snapshot.layout.capacity
      snapshot.layout.room ≠ .error .memory := by
  intro hshort
  simp only [insertAt, Layout.insert, hshort] at h
  have hreported : Event.refused .memory 1 ∈ snapshot.trace ++ [Event.refused .memory 1] := by simp
  exact Bool.noConfusion (h _ hreported)

/-- A set and a map have the same keys in the same slots, with the same colours, and have been
through the same; `level` is whether storage grows alike, and `same` whether memory allows as
many slots. -/
structure Twins (level same : Prop) (set : Snapshot σ K Unit) (map : Snapshot σ K V) :
    Prop where
  /-- The nodes differ in their values alone. -/
  tree : set.layout.tree = map.layout.tree.map Cell.skeleton
  /-- The same slots are vacant. -/
  vacated : set.layout.vacated = map.layout.vacated
  /-- As many slots fit. -/
  capacity : level → set.layout.capacity = map.layout.capacity
  /-- Storage grows to the same least capacity. -/
  least : level → set.layout.room.least = map.layout.room.least
  /-- Memory allows as many slots. -/
  most : same → set.layout.room.most = map.layout.room.most
  /-- The comparators remember the same. -/
  memory : set.memory = map.memory
  /-- The same events were reported. -/
  trace : set.trace = map.trace

namespace Twins

variable {level same : Prop} {set : Snapshot σ K Unit} {map : Snapshot σ K V}
  (h : Twins level same set map)

include h

/-- But for the capacity, their layouts have the same skeleton. -/
theorem skeleton_eq :
    set.layout.skeleton = { map.layout with capacity := set.layout.capacity }.skeleton := by
  rw [Layout.skeleton, Layout.skeleton, h.tree, h.vacated, Tree.map_map]
  -- the skeleton of a skeleton is the skeleton
  rfl

/-- If storage grows alike, their layouts have the same skeleton. -/
theorem skeleton_eq_of_level (hlevel : level) : set.layout.skeleton = map.layout.skeleton := by
  rw [h.skeleton_eq, h.capacity hlevel]

/-- Both find the same slot or none, unless memory is short for one of them alone. -/
theorem allot {path : Path (Cell K V)} {path' : Path (Cell K Unit)} {key : K} {value : V}
    (hstored : level ∧ same ∨ Event.MemorySuffices (set.insertAt key path' ()).2.trace ∧
      Event.MemorySuffices (map.insertAt key path value).2.trace) :
    (∃ cause, Arena.allot map.layout.tree.size map.layout.vacated set.layout.capacity
          set.layout.room = .error cause ∧
        Arena.allot map.layout.tree.size map.layout.vacated map.layout.capacity
          map.layout.room = .error cause) ∨
      ∃ id rest grown grown',
        Arena.allot map.layout.tree.size map.layout.vacated set.layout.capacity
          set.layout.room = .ok (id, rest, grown) ∧
        Arena.allot map.layout.tree.size map.layout.vacated map.layout.capacity
          map.layout.room = .ok (id, rest, grown') ∧ (level → grown = grown') := by
  rcases hstored with ⟨hlevel, hsame⟩ | ⟨hset, hmap⟩
  · rw [Arena.allot_congr (h.capacity hlevel) (h.least hlevel) (h.most hsame)]
    rcases Arena.allot map.layout.tree.size map.layout.vacated map.layout.capacity
        map.layout.room with cause | ⟨id, rest, grown⟩
    · exact .inl ⟨cause, rfl, rfl⟩
    · exact .inr ⟨id, rest, grown, grown, rfl, rfl, fun _ => rfl⟩
  -- both have enough memory, and capacities have no say in which slot it is
  · have hset := allot_ne_memory hset
    rw [h.tree, Tree.size_map, h.vacated] at hset
    rcases Arena.allot_of_ne_memory hset (allot_ne_memory hmap) with
      ⟨hnone, hnone'⟩ | ⟨id, rest, grown, grown', hslot, hslot', hgrown⟩
    · exact .inl ⟨_, hnone, hnone'⟩
    · exact .inr ⟨id, rest, grown, grown', hslot, hslot',
        fun hlevel => hgrown ⟨h.capacity hlevel, h.least hlevel⟩⟩

theorem withTree {tree : Tree (Cell K Unit)} {tree' : Tree (Cell K V)}
    (htree : tree = tree'.map Cell.skeleton) :
    Twins level same (set.withTree tree) (map.withTree tree') :=
  { h with tree := htree }

theorem report (events : List Event) : Twins level same (set.report events) (map.report events) :=
  { h with trace := congrArg (fun trace : Array Event => trace ++ events) h.trace }

theorem release (values : List Unit) (values' : List V) :
    Twins level same (set.release values) (map.release values') :=
  { h with }

/-- The descent for a key asks the same questions and ends in the same place. -/
theorem seek {comparator : Comparator σ K} {key : K} {tree : Tree (Cell K V)}
    {path : Path (Cell K V)} {after' : Snapshot σ K V}
    (hseek : map.seek comparator key = ((tree, path), after')) :
    ∃ after, set.seek comparator key =
        ((tree.map Cell.skeleton, path.map Cell.skeleton), after) ∧
      Twins level same after after' := by
  simp only [Snapshot.seek, Prod.mk.injEq] at hseek
  obtain ⟨hplace, rfl⟩ := hseek
  let found := map.layout.tree.seek (comparator.probe key) [] map.memory
  have hset : (map.layout.tree.map Cell.skeleton).seek (comparator.probe key) [] map.memory =
      ((found.1.1.map Cell.skeleton, found.1.2.map Cell.skeleton), found.2) :=
    Tree.seek_map Cell.skeleton (comparator.probe key) map.layout.tree [] map.memory
  refine ⟨(set.seek comparator key).2, ?_, ?_⟩
  all_goals simp only [Snapshot.seek, h.tree, h.memory, hset, found, hplace]
  exact { h with memory := rfl }

/-- Storing a new key in the same empty place, unless memory is short for one of them alone. -/
theorem insertAt {path : Path (Cell K V)} {key : K} {value : V}
    (hstored : level ∧ same ∨
      Event.MemorySuffices (set.insertAt key (path.map Cell.skeleton) ()).2.trace ∧
        Event.MemorySuffices (map.insertAt key path value).2.trace) :
    (set.insertAt key (path.map Cell.skeleton) ()).1 ≠ .error .keyAlreadyExists ∧
      (∀ replaced, (map.insertAt key path value).1 ≠ .ok (some replaced)) ∧
      Twins level same (set.insertAt key (path.map Cell.skeleton) ()).2
        (map.insertAt key path value).2 := by
  have hallot := h.allot hstored
  have hsize : set.layout.tree.size = map.layout.tree.size := by
    rw [h.tree, Tree.size_map]
  simp only [Snapshot.insertAt, Layout.insert, hsize, h.vacated]
  rcases hallot with ⟨cause, hset, hmap⟩ | ⟨id, vacated, capacity, capacity', hset, hmap, hcapacity⟩
  all_goals simp only [hset, hmap]
  · refine ⟨?_, ?_, (h.report _).release _ _⟩
    · intro hexists
      cases hexists
    · intro replaced hreplaced
      cases hreplaced
  · have hrepair := Tree.repairRed_map Cell.skeleton
      (.node .red .nil (⟨id, key, value⟩ : Cell K V) .nil) path
    have hleaf : (Tree.node .red .nil (⟨id, key, value⟩ : Cell K V) .nil).map Cell.skeleton =
        .node .red .nil ⟨id, key, ()⟩ .nil := rfl
    rw [hleaf] at hrepair
    simp only [hrepair]
    refine ⟨?_, ?_, Twins.report ?_ _⟩
    · intro hexists
      cases hexists
    · intro replaced hreplaced
      cases hreplaced
    · exact { h with tree := rfl, vacated := rfl, capacity := hcapacity }

theorem erase (color : Color) (left : Tree (Cell K V)) (cell : Cell K V)
    (right : Tree (Cell K V)) (path : Path (Cell K V)) :
    Twins level same
      (set.erase color (left.map Cell.skeleton) cell.skeleton (right.map Cell.skeleton)
        (path.map Cell.skeleton)).2
      (map.erase color left cell right path).2 := by
  simp only [Snapshot.erase, Layout.erase, Tree.erase_map]
  refine Twins.report ?_ _
  exact { h with tree := rfl, vacated := congrArg (List.cons cell.slot) h.vacated }

theorem eraseFrame (below : Tree (Cell K V)) (frame : Frame (Cell K V))
    (path : Path (Cell K V)) :
    Twins level same
      (set.eraseFrame (below.map Cell.skeleton) (frame.map Cell.skeleton)
        (path.map Cell.skeleton)).2
      (map.eraseFrame below frame path).2 := by
  simp only [Snapshot.eraseFrame, Frame.left_map, Frame.right_map]
  exact h.erase frame.color (frame.left below) frame.entry (frame.right below) path

/-- Under a key that is called equal, the set stores nothing and the map another value. -/
theorem insert (comparator : Comparator σ K) {key : K} {value : V}
    (hstored : level ∧ same ∨
      Event.MemorySuffices (set.insert comparator key () .reject).2.trace ∧
        Event.MemorySuffices (map.insert comparator key value .overwrite).2.trace) :
    ((set.insert comparator key () .reject).1 = .error .keyAlreadyExists ↔
        ∃ replaced, (map.insert comparator key value .overwrite).1 = .ok (some replaced)) ∧
      Twins level same (set.insert comparator key () .reject).2
        (map.insert comparator key value .overwrite).2 := by
  rcases hseek' : map.seek comparator key with ⟨⟨tree, path⟩, after'⟩
  obtain ⟨after, hseek, hdescent⟩ := h.seek hseek'
  rw [Snapshot.insert, Snapshot.insert, hseek, hseek'] at hstored ⊢
  cases tree with
  -- at an empty place, the policies do not differ
  | nil =>
    obtain ⟨hreject, hreplace, hafter⟩ := hdescent.insertAt hstored
    refine ⟨⟨fun hexists => absurd hexists hreject, ?_⟩, hafter⟩
    rintro ⟨replaced, hreplaced⟩
    exact absurd hreplaced (hreplace replaced)
  | node color left cell right =>
    obtain ⟨htree, -⟩ := of_seek_eq hseek'
    refine ⟨⟨fun _ => ⟨cell.value, rfl⟩, fun _ => rfl⟩, ?_⟩
    -- the new value does not show in the skeleton
    have hsame : after.layout.tree =
        ((Tree.node color left (cell.withValue value) right).under path).map Cell.skeleton := by
      rw [hdescent.tree, ← htree, ← Tree.under_map, ← Tree.under_map]
      rfl
    exact (hdescent.withTree hsame).release [()] []

theorem remove (comparator : Comparator σ K) (key : K) :
    Twins level same (set.remove comparator key).2 (map.remove comparator key).2 := by
  rcases hseek' : map.seek comparator key with ⟨⟨tree, path⟩, after'⟩
  obtain ⟨after, hseek, hdescent⟩ := h.seek hseek'
  rw [Snapshot.remove, Snapshot.remove, hseek, hseek']
  cases tree with
  | nil => exact hdescent
  | node color left cell right => exact hdescent.erase color left cell right path

/-- The way to the outermost place on one side is the same. -/
theorem spine (side : Side) :
    set.layout.tree.spine side [] = (map.layout.tree.spine side []).map Cell.skeleton := by
  rw [h.tree]
  exact Tree.spine_map Cell.skeleton side map.layout.tree []

theorem pop (side : Side) : Twins level same (set.pop side).2 (map.pop side).2 := by
  rw [Snapshot.pop, Snapshot.pop, h.spine side]
  rcases map.layout.tree.spine side [] with _ | ⟨frame, path⟩
  · exact h
  · exact h.eraseFrame .nil frame path

theorem clear : Twins level same set.clear map.clear := by
  simp only [Snapshot.clear, Layout.clear, h.tree]
  -- nothing is reported for an empty tree
  cases hmap : map.layout.tree with
  | nil => exact (h.report []).release [] []
  | node color left cell right =>
    simp only [Tree.map_node, Tree.size, Tree.size_map]
    refine Twins.release (Twins.report ?_ _) _ _
    exact { h with tree := rfl, vacated := rfl }

/-! ### Cursors and filters -/

theorem trail (comparator : Comparator σ K) (key : K) :
    (set.trail comparator key).1 = (map.trail comparator key).1.map Cell.skeleton ∧
      Twins level same (set.trail comparator key).2 (map.trail comparator key).2 := by
  have htrail := Tree.trail_map Cell.skeleton (comparator.probe key) map.layout.tree [] map.memory
  rw [Tree.Path.map, List.map_nil] at htrail
  simp only [Snapshot.trail, h.tree, h.memory, htrail, Path.turns_map, List.length_map]
  refine ⟨rfl, Twins.report ?_ _⟩
  exact { h with memory := rfl }

theorem cut (comparator : Comparator σ K) (below : Tree (Cell K V)) (frame : Frame (Cell K V))
    (up : Path (Cell K V)) :
    (set.cut comparator (below.map Cell.skeleton) (frame.map Cell.skeleton)
          (up.map Cell.skeleton)).1.2 =
        (map.cut comparator below frame up).1.2.map Cell.skeleton ∧
      Twins level same
        (set.cut comparator (below.map Cell.skeleton) (frame.map Cell.skeleton)
          (up.map Cell.skeleton)).2
        (map.cut comparator below frame up).2 :=
  (h.eraseFrame below frame up).trail comparator frame.entry.key

/-- Another value in the entry that is passed does not show in the skeleton. -/
theorem pass {path up : Path (Cell K V)} {below : Tree (Cell K V)} {frame : Frame (Cell K V)}
    (htree : Tree.nil.under path = map.layout.tree)
    (hclimb : Path.climb .left path .nil = some (below, frame, up)) (value : V) :
    Twins level same set
      (map.withTree (Tree.nil.under (Path.pass below frame (frame.entry.withValue value) up))) := by
  obtain ⟨hside, hunder⟩ := Path.of_climb_eq_some hclimb
  have hsame : set.layout.tree =
      (Tree.nil.under (Path.pass below frame (frame.entry.withValue value) up)).map
        Cell.skeleton := by
    rw [h.tree, ← htree, hunder, Path.nil_under_pass _ hside, ← Tree.under_map, ← Tree.under_map,
      ← Frame.close_map, ← Frame.close_map]
    rfl
  exact h.withTree hsame

/-- A use of the set's cursor and one of the map's. -/
theorem move (comparator : Comparator σ K) {place : Place K V}
    (htree : Tree.nil.under place.path = map.layout.tree) {move : Cursor.Move Unit}
    {move' : Cursor.Move V} (hmove : move.Twin move') :
    (set.move comparator place.skeleton move).2.1 =
        (map.move comparator place move').2.1.skeleton ∧
      Twins level same (set.move comparator place.skeleton move).2.2
        (map.move comparator place move').2.2 := by
  have hnext := Path.climb_map Cell.skeleton .left place.path .nil
  rw [Tree.map_nil] at hnext
  cases hmove with
  | next =>
    refine ⟨?_, h⟩
    simp only [Snapshot.move, Place.next, Place.step, Place.skeleton, hnext]
    rcases Path.climb .left place.path .nil with _ | ⟨below, frame, up⟩
    · rfl
    · exact congrArg (Place.mk · true) (Path.pass_map Cell.skeleton below frame frame.entry up)
  | replace value =>
    simp only [Snapshot.move, Place.next, Place.step, nextReplacing, Place.skeleton, hnext]
    rcases hclimb : Path.climb .left place.path .nil with _ | ⟨below, frame, up⟩
    · exact ⟨rfl, h⟩
    · refine ⟨?_, h.pass htree hclimb value⟩
      exact congrArg (Place.mk · true)
        (Path.pass_map Cell.skeleton below frame (frame.entry.withValue value) up)
  | hasNext => exact ⟨rfl, h⟩
  | remove =>
    simp only [Snapshot.move, removeAt, Place.last?_skeleton]
    rcases place.last? with _ | ⟨below, frame, up⟩
    · exact ⟨rfl, h⟩
    · obtain ⟨hplace, hafter⟩ := h.cut comparator below frame up
      exact ⟨congrArg (Place.mk · false) hplace, hafter⟩

theorem moves (comparator : Comparator σ K) {place : Place K V}
    (htree : Tree.nil.under place.path = map.layout.tree) {moves : List (Cursor.Move Unit)}
    {moves' : List (Cursor.Move V)} (hmoves : List.Forall₂ Cursor.Move.Twin moves moves') :
    Twins level same (set.moves comparator place.skeleton moves).2.2
      (map.moves comparator place moves').2.2 := by
  induction hmoves generalizing set map place with
  | nil => exact h
  | cons hmove _ ih =>
    obtain ⟨hplace, hafter⟩ := h.move comparator htree hmove
    simp only [Snapshot.moves, hplace]
    exact ih hafter (nil_under_move htree _)

theorem retain (comparator : Comparator σ K) {keep : K → Unit → StateM τ (Bool × Unit)}
    {keep' : K → V → StateM τ (Bool × V)} (hkeep : DecideAlike keep keep')
    {path : Path (Cell K V)} (htree : Tree.nil.under path = map.layout.tree) (state : τ) :
    Twins level same (set.retain comparator keep (path.map Cell.skeleton) state).2
      (map.retain comparator keep' path state).2 := by
  -- the steps that are left become fewer, whatever is removed on the way
  induction heffort : Path.effort path using Nat.strong_induction_on
    generalizing set map path state with
  | h effort ih =>
  subst heffort
  have hnext := Path.climb_map Cell.skeleton .left path .nil
  rw [Tree.map_nil] at hnext
  rcases hclimb : Path.climb .left path .nil with _ | ⟨below, frame, up⟩
  · rw [hclimb] at hnext
    rw [retain_of_none comparator keep set hnext, retain_of_none comparator keep' map hclimb]
    exact h
  · rw [hclimb] at hnext
    rcases hvisit' : keep' frame.entry.key frame.entry.value state with ⟨⟨stays, value⟩, state'⟩
    have hvisit : keep frame.entry.key () state = ((stays, ()), state') := by
      obtain ⟨hstays, hstate⟩ := hkeep frame.entry.key frame.entry.value state
      rw [hvisit'] at hstays hstate
      exact Prod.ext (Prod.ext hstays.symm rfl) hstate.symm
    let cell := frame.entry.withValue value
    let passed := Path.pass below frame cell up
    let visited := map.withTree (Tree.nil.under passed)
    have hvisited : Twins level same set visited := h.pass htree hclimb value
    have hlt : Path.effort passed < Path.effort path :=
      Nat.le_of_eq (Path.effort_pass hclimb cell)
    rw [retain_of_some comparator keep set hnext hvisit,
      retain_of_some comparator keep' map hclimb hvisit']
    -- what the map leaves in the entry does not show in the skeleton
    have hpath : Path.pass (below.map Cell.skeleton) (frame.map Cell.skeleton)
        ((frame.map Cell.skeleton).entry.withValue ()) (up.map Cell.skeleton) =
          passed.map Cell.skeleton :=
      Path.pass_map Cell.skeleton below frame cell up
    have htwins : Twins level same
        (set.withTree (Tree.nil.under (passed.map Cell.skeleton))) visited :=
      h.withTree (Tree.under_map Cell.skeleton .nil passed)
    simp only [hpath]
    cases stays with
    | true => exact ih _ hlt htwins rfl state' rfl
    | false =>
      let last : Frame (Cell K V) := ⟨.right, frame.color, cell, below⟩
      obtain ⟨hplace, hafter⟩ := htwins.cut comparator frame.sibling last up
      rcases hcut : visited.cut comparator frame.sibling last up with
        ⟨⟨removed, place⟩, after⟩
      have hunder := nil_under_of_cut hcut
      rw [hcut] at hplace hafter
      have hrest := ih _ (Nat.lt_trans (effort_lt_of_cut hcut) hlt)
        (hafter.release [()] [removed.2]) hunder state' rfl
      rw [← hplace] at hrest
      exact hrest

end Twins

end Snapshot

/-! ## Operations and runs -/

/-- The operations that sets and maps share and that go together. -/
inductive Operation.Twin : Operation τ K Unit → Operation τ K V → Prop
  | pop (side : Side) : Twin (.pop side) (.pop side)
  | clear : Twin .clear .clear
  | traverse {moves : List (Cursor.Move Unit)} {moves' : List (Cursor.Move V)}
      (h : List.Forall₂ Cursor.Move.Twin moves moves') : Twin (.traverse moves) (.traverse moves')
  | retain {keep : K → Unit → StateM τ (Bool × Unit)} {keep' : K → V → StateM τ (Bool × V)}
      (h : DecideAlike keep keep') (state : τ) :
      Twin (.retain keep state) (.retain keep' state)

/-- The operations on a set and on a map that go together, whatever values the map is given. -/
inductive OrderedSet.Operation.Twin :
    OrderedSet.Operation τ K → OrderedMap.Operation τ K V → Prop
  | insert (key : K) (value : V) : Twin (.insert key) (.insert key value)
  | remove (key : K) : Twin (.remove key) (.remove key)
  | removeEntry (key : K) : Twin (.remove key) (.removeEntry key)
  | take (key : K) : Twin (.take key) (.remove key)
  | takeEntry (key : K) : Twin (.take key) (.removeEntry key)
  | shared {operation : RedBlack.Operation τ K Unit} {operation' : RedBlack.Operation τ K V}
      (h : operation.Twin operation') : Twin (.shared operation) (.shared operation')

/-- The key was there already. -/
def Answer.KeyExists (answer : Answer τ K V) : Prop :=
  answer = .outcome (.error .keyAlreadyExists)

instance (answer : Answer τ K V) : Decidable answer.KeyExists :=
  match answer with
  | .outcome (.error error) =>
    decidable_of_iff (error = .keyAlreadyExists) (by simp [Answer.KeyExists])
  | .outcome (.ok _) | .stored _ | .done | .flag _ | .number _ | .value _ | .entry _ | .key _
  | .entries _ | .iterated _ | .traversed _ | .retained _ => isFalse nofun

theorem Answer.outcome_map_eq_iff {α : Type} {result : Except Error α} {f : α → Unit}
    {error : Error} :
    (Answer.outcome (result.map f) : Answer τ K V) = .outcome (.error error) ↔
      result = .error error := by
  cases result <;> simp [Except.map]

/-- A value was replaced. -/
def Answer.Replaced (answer : Answer τ K V) : Prop :=
  ∃ value, answer = .stored (.ok (some value))

instance (answer : Answer τ K V) : Decidable answer.Replaced :=
  match answer with
  | .stored (.ok (some value)) => isTrue ⟨value, rfl⟩
  | .stored (.ok none) | .stored (.error _) | .outcome _ | .done | .flag _ | .number _ | .value _
  | .entry _ | .key _ | .entries _ | .iterated _ | .traversed _ | .retained _ =>
    isFalse (by rintro ⟨_, ⟨⟩⟩)

namespace Snapshot

variable {level same : Prop} {set : Snapshot σ K Unit} {map : Snapshot σ K V}

/-- A removal never complains about a key that is there. -/
theorem remove_ne_exists (comparator : Comparator σ K) (key : K) (snapshot : Snapshot σ K V) :
    (snapshot.remove comparator key).1 ≠ .error .keyAlreadyExists := by
  rw [remove]
  rcases snapshot.seek comparator key with ⟨⟨_ | _, _⟩, _⟩
  all_goals
    intro hexists
    cases hexists

/-- An operation keeps twins twins, unless memory is short for one of them alone. The set finds
the key exactly if the map replaces a value. -/
theorem Twins.follow (h : Twins level same set map) (comparator : Comparator σ K)
    {operation : OrderedSet.Operation τ K} {operation' : OrderedMap.Operation τ K V}
    (htwin : operation.Twin operation')
    (hstored : level ∧ same ∨
      Event.MemorySuffices (operation.follow comparator set).2.trace ∧
        Event.MemorySuffices (operation'.follow comparator map).2.trace) :
    ((operation.follow comparator set).1.KeyExists ↔
        (operation'.follow comparator map).1.Replaced) ∧
      Twins level same (operation.follow comparator set).2
        (operation'.follow comparator map).2 := by
  -- neither a removal nor what is shared has to do with a key that is there
  have hremove (key : K) :
      ¬((OrderedSet.Operation.remove key : OrderedSet.Operation τ K).follow
        comparator set).1.KeyExists :=
    fun hexists => remove_ne_exists comparator key set (Answer.outcome_map_eq_iff.1 hexists)
  cases htwin with
  | insert key value =>
    obtain ⟨hexists, hafter⟩ := h.insert comparator hstored
    refine ⟨Answer.outcome_map_eq_iff.trans (hexists.trans ?_), hafter⟩
    exact exists_congr fun value => (Answer.stored.injEq _ _).symm.to_iff
  | remove key => exact ⟨iff_of_false (hremove key) nofun, h.remove comparator key⟩
  | removeEntry key => exact ⟨iff_of_false (hremove key) nofun, h.remove comparator key⟩
  | take key => exact ⟨iff_of_false nofun nofun, h.remove comparator key⟩
  | takeEntry key => exact ⟨iff_of_false nofun nofun, h.remove comparator key⟩
  | shared hshared =>
    cases hshared with
    | pop side => exact ⟨iff_of_false nofun nofun, h.pop side⟩
    | clear => exact ⟨iff_of_false nofun nofun, h.clear⟩
    | traverse hmoves =>
      have hstart : Place.start set.layout.tree = (Place.start map.layout.tree).skeleton :=
        congrArg (Place.mk · false) (h.spine .left)
      have htree : Tree.nil.under (Place.start map.layout.tree).path = map.layout.tree :=
        Tree.nil_under_spine .left map.layout.tree []
      have htraverse := h.moves comparator htree hmoves
      rw [← hstart] at htraverse
      exact ⟨iff_of_false nofun nofun, htraverse⟩
    | retain hkeep state =>
      have htree := Tree.nil_under_spine .left map.layout.tree []
      have hretain := h.retain comparator hkeep htree state
      rw [← h.spine] at hretain
      exact ⟨iff_of_false nofun nofun, hretain⟩

end Snapshot

namespace Engine

/-- Perform an action and give the context afterwards beside its answer. -/
def exhibit {A B : Type} (perform : A → EngineM σ K V B) (action : A) :
    EngineM σ K V (B × Context σ K V) := do
  let answer ← perform action
  return (answer, ← getThe (Context σ K V))

section

variable {A B : Type} {perform : A → EngineM σ K V B}

theorem run_exhibit_cons {action : A} {actions : List A} {answer : B}
    {views : List (B × Context σ K V)} {context between after : Context σ K V}
    (h : perform action context = .ok answer between)
    (hrest : run (exhibit perform) actions between = .ok views after) :
    run (exhibit perform) (action :: actions) context =
      .ok ((answer, between) :: views) after := by
  have hfirst : exhibit perform action context = .ok (answer, between) between :=
    bind_of_ok h
  exact (bind_of_ok hfirst).trans (bind_of_ok hrest)

/-- What can be followed on snapshots ends without a fault. -/
theorem exists_run_exhibit {follow : A → Snapshot σ K V → B × Snapshot σ K V}
    (h : ∀ action before, Performs (perform action) before (follow action before).2
      (follow action before).1) (actions : List A) {snapshot : Snapshot σ K V}
    {tree : LinkedTree K V} (hlaid : tree.LaidOut snapshot.layout) :
    ∃ views after, run (exhibit perform) actions (snapshot.around tree) = .ok views after := by
  induction actions generalizing snapshot tree with
  | nil => exact ⟨_, _, rfl⟩
  | cons action actions ih =>
    obtain ⟨new, hfirst, hnew⟩ := h action snapshot tree hlaid
    obtain ⟨views, after, hrest⟩ := ih hnew
    exact ⟨_, _, run_exhibit_cons hfirst hrest⟩

end

/-- What a set and a map have in common after a step: all but the values and, unless storage grows
alike, the capacity. -/
structure Agree (level : Prop) (set : Answer τ K Unit × Context σ K Unit)
    (map : Answer τ K V × Context σ K V) : Prop where
  /-- But for the capacity, the keys lie in the same slots, with the same links and colours, the
  same slots are vacant in the same order, and the counts are the same. -/
  skeleton : set.2.tree.skeleton = (map.2.tree.resized set.2.tree.arena.capacity).skeleton
  /-- The capacity is the same. -/
  capacity : level → set.2.tree.arena.capacity = map.2.tree.arena.capacity
  /-- The keys form the same tree, with the same colours. -/
  shape : set.2.tree.toTree = (map.2.tree.toTree).map (Tree.map fun entry => (entry.1, ()))
  /-- The longest paths have as many nodes. -/
  height : set.2.tree.height = map.2.tree.height
  /-- The comparators remember the same. -/
  memory : set.2.memory = map.2.memory
  /-- The same events were reported. -/
  trace : set.2.trace = map.2.trace
  /-- The set found the key exactly if the map replaced a value. -/
  answer : set.1.KeyExists ↔ map.1.Replaced

/-- Twins agree in all that can be seen of them. -/
theorem Agree.of_twins {level same : Prop} {set : Snapshot σ K Unit} {map : Snapshot σ K V}
    (h : set.Twins level same map) {tree : LinkedTree K Unit} {tree' : LinkedTree K V}
    (hlaid : tree.LaidOut set.layout) (hlaid' : tree'.LaidOut map.layout)
    {answer : Answer τ K Unit} {answer' : Answer τ K V}
    (hanswer : answer.KeyExists ↔ answer'.Replaced) :
    Agree level (answer, set.around tree) (answer', map.around tree') where
  skeleton := by
    have hlayout := h.skeleton_eq
    rw [← hlaid.capacity] at hlayout
    exact hlaid.skeleton_eq (hlaid'.resized _) hlayout
  capacity hlevel := hlaid.capacity.trans ((h.capacity hlevel).trans hlaid'.capacity.symm)
  shape := by
    have hshape : set.layout.tree.entries =
        map.layout.tree.entries.map fun entry => (entry.1, ()) := by
      rw [h.tree, Tree.entries, Tree.entries, Tree.map_map, Tree.map_map]
      rfl
    exact hlaid.toTree_eq_ok.trans ((congrArg Except.ok hshape).trans
      (congrArg (Except.map _) hlaid'.toTree_eq_ok).symm)
  height := by
    have hheight : set.layout.tree.height = map.layout.tree.height := by
      rw [h.tree, Tree.height_map]
    exact hlaid.height_eq_ok.trans
      ((congrArg Except.ok hheight).trans hlaid'.height_eq_ok.symm)
  memory := h.memory
  trace := h.trace
  answer := hanswer

/-- Operations that go together keep twins in agreement, step by step, as long as memory is not
short for one of them alone. -/
theorem agree_of_run {level same : Prop} {set : Snapshot σ K Unit} {map : Snapshot σ K V}
    (h : set.Twins level same map) (comparator : Comparator σ K) {tree : LinkedTree K Unit}
    {tree' : LinkedTree K V} (hlaid : tree.LaidOut set.layout)
    (hlaid' : tree'.LaidOut map.layout) {operations : List (OrderedSet.Operation τ K)}
    {operations' : List (OrderedMap.Operation τ K V)}
    (htwin : List.Forall₂ OrderedSet.Operation.Twin operations operations')
    {views : List (Answer τ K Unit × Context σ K Unit)}
    {views' : List (Answer τ K V × Context σ K V)} {after : Context σ K Unit}
    {after' : Context σ K V}
    (hrun : run (exhibit (OrderedSet.Operation.perform comparator)) operations (set.around tree) =
      .ok views after)
    (hrun' : run (exhibit (OrderedMap.Operation.perform comparator)) operations'
      (map.around tree') = .ok views' after')
    (hstored : level ∧ same ∨ (∀ view ∈ views, Event.MemorySuffices view.2.trace) ∧
      ∀ view ∈ views', Event.MemorySuffices view.2.trace) :
    List.Forall₂ (Agree level) views views' := by
  induction htwin generalizing set map tree tree' views views' with
  | nil =>
    cases hrun
    cases hrun'
    exact .nil
  | @cons operation operation' operations operations' hfirst _ ih =>
    obtain ⟨new, hperform, hnew⟩ := Performs.setOperation comparator operation set tree hlaid
    obtain ⟨new', hperform', hnew'⟩ :=
      Performs.mapOperation comparator operation' map tree' hlaid'
    obtain ⟨rest, _, hrest⟩ :=
      exists_run_exhibit (Performs.setOperation comparator) operations hnew
    obtain ⟨rest', _, hrest'⟩ :=
      exists_run_exhibit (Performs.mapOperation comparator) operations' hnew'
    -- each run is its first step and the run from there
    cases (run_exhibit_cons hperform hrest).symm.trans hrun
    cases (run_exhibit_cons hperform' hrest').symm.trans hrun'
    simp only [List.forall_mem_cons] at hstored
    obtain ⟨hanswer, htwins⟩ := h.follow comparator hfirst
      (hstored.imp_right fun hnever => ⟨hnever.1.1, hnever.2.1⟩)
    exact .cons (.of_twins htwins hnew hnew' hanswer)
      (ih htwins hnew hnew' hrest hrest'
        (hstored.imp_right fun hnever => ⟨hnever.1.2, hnever.2.2⟩))

/-- A set and a map of the same keys, whatever values the map is given, agree after every step of
a run in which memory is never short: in the slots, links, colours and keys, in the free list, the
counts and the height, in what their comparators were asked, and in the events. The set finds a
key exactly if the map replaces a value. If storage grows alike, they also have the same capacity,
and if memory allows as many slots too, all of this holds even where it is short. -/
theorem values_do_not_shape {room room' : Room} {capacity capacity' : Nat} {arena : Arena K Unit}
    {arena' : Arena K V} (hnew : Arena.withCapacity room capacity = .ok arena)
    (hnew' : Arena.withCapacity room' capacity' = .ok arena') (comparator : Comparator σ K)
    (memory : σ) {operations : List (OrderedSet.Operation τ K)}
    {operations' : List (OrderedMap.Operation τ K V)}
    (htwin : List.Forall₂ OrderedSet.Operation.Twin operations operations') :
    ∃ views views' after after',
      run (exhibit (OrderedSet.Operation.perform comparator.recording)) operations
        (.ofArena arena { memory }) = .ok views after ∧
      run (exhibit (OrderedMap.Operation.perform comparator.recording)) operations'
        (.ofArena arena' { memory }) = .ok views' after' ∧
      (arena.GrowsLike arena' ∧ arena.room.most = arena'.room.most ∨
          (∀ view ∈ views, Event.MemorySuffices view.2.trace) ∧
            (∀ view ∈ views', Event.MemorySuffices view.2.trace) →
        List.Forall₂ (Agree (arena.GrowsLike arena')) views views') := by
  let set : Snapshot (Record σ K) K Unit := .empty arena.capacity room { memory }
  let map : Snapshot (Record σ K) K V := .empty arena'.capacity room' { memory }
  have hlaid : (LinkedTree.ofArena arena).LaidOut set.layout := LinkedTree.laidOut_ofArena hnew
  have hlaid' : (LinkedTree.ofArena arena').LaidOut map.layout := LinkedTree.laidOut_ofArena hnew'
  have htwins : set.Twins (arena.GrowsLike arena') (arena.room.most = arena'.room.most) map :=
    { tree := rfl
      vacated := rfl
      capacity := And.left
      least := fun hlevel => hlaid.room ▸ hlaid'.room ▸ hlevel.2
      most := fun hsame => hlaid.room ▸ hlaid'.room ▸ hsame
      memory := rfl
      trace := rfl }
  obtain ⟨views, after, hrun⟩ :=
    exists_run_exhibit (Performs.setOperation comparator.recording) operations hlaid
  obtain ⟨views', after', hrun'⟩ :=
    exists_run_exhibit (Performs.mapOperation comparator.recording) operations' hlaid'
  exact ⟨views, views', after, after', hrun, hrun',
    agree_of_run htwins comparator.recording hlaid hlaid' htwin hrun hrun'⟩

/-- An order that calls keys equal if both are even or both odd. -/
def byParity : Comparator Unit Nat :=
  .ofOrder fun a b => compare (a % 2) (b % 2)

/-- A use of a set that goes by parity: the third key is refused. -/
def useOfSet : List (OrderedSet.Operation Unit Nat) :=
  [.insert 1, .insert 2, .insert 3, .shared (.traverse [.next, .remove, .next]), .insert 4, .take 5,
    .shared (.retain (fun key _ _ => ((key == 4, ()), ())) ()), .shared (.pop .left),
    .shared .clear]

/-- The same use of a map: the third value is stored under the first key. -/
def useOfMap : List (OrderedMap.Operation Unit Nat Nat) :=
  [.insert 1 10, .insert 2 20, .insert 3 30, .shared (.traverse [.next, .remove, .replace 7]),
    .insert 4 40, .removeEntry 5,
    .shared (.retain (fun key value _ => ((key == 4, value + 1), ())) ()), .shared (.pop .left),
    .shared .clear]

/-- Both uses go together. -/
theorem twin_uses : List.Forall₂ OrderedSet.Operation.Twin useOfSet useOfMap :=
  .cons (.insert 1 10) <| .cons (.insert 2 20) <| .cons (.insert 3 30) <|
    .cons (.shared (.traverse (.cons .next (.cons .remove (.cons (.replace 7) .nil))))) <|
    .cons (.insert 4 40) <| .cons (.takeEntry 5) <|
    .cons (.shared (.retain (by intro _ _ _; exact ⟨rfl, rfl⟩) ())) <|
    .cons (.shared (.pop .left)) <| .cons (.shared .clear) .nil

/-- A set and a map whose slots are a few bytes larger agree in everything. A map with slots of two
kilobytes, for no more than two of which there is memory, agrees with them in all but the
capacity. -/
theorem values_do_not_shape_parity :
    ∃ views views' views'' after after' after'',
      run (exhibit (OrderedSet.Operation.perform byParity.recording)) useOfSet
        (.ofArena (Arena.empty ⟨8, 24⟩) { memory := () }) = .ok views after ∧
      run (exhibit (OrderedMap.Operation.perform byParity.recording)) useOfMap
        (.ofArena (Arena.empty ⟨8, 32⟩) { memory := () }) = .ok views' after' ∧
      run (exhibit (OrderedMap.Operation.perform byParity.recording)) useOfMap
        (.ofArena (Arena.empty ⟨2, 2024⟩) { memory := () }) = .ok views'' after'' ∧
      views.map (fun view => decide view.1.KeyExists) =
        [false, false, true, false, false, false, false, false, false] ∧
      views'.map (fun view => view.2.tree.size) = [1, 2, 2, 1, 2, 1, 1, 0, 0] ∧
      views''.map (fun view => view.2.tree.arena.capacity) = [1, 2, 2, 2, 2, 2, 2, 2, 2] ∧
      List.Forall₂ (Agree True) views views' ∧ List.Forall₂ (Agree False) views views'' := by
  let set : Arena Nat Unit := Arena.empty ⟨8, 24⟩
  let map : Arena Nat Nat := Arena.empty ⟨8, 32⟩
  let large : Arena Nat Nat := Arena.empty ⟨2, 2024⟩
  have hset : Arena.withCapacity ⟨8, 24⟩ 0 = .ok set := rfl
  have hmap : Arena.withCapacity ⟨8, 32⟩ 0 = .ok map := rfl
  have hlarge : Arena.withCapacity ⟨2, 2024⟩ 0 = .ok large := rfl
  have hlevel : set.GrowsLike map := ⟨rfl, rfl⟩
  have hbelow : ¬set.GrowsLike large := fun hlevel => absurd hlevel.2 (by decide)
  obtain ⟨views, views', after, after', hrun, hrun', hagree⟩ :=
    values_do_not_shape hset hmap byParity () twin_uses
  obtain ⟨_, views'', _, after'', hsame, hrun'', hagree'⟩ :=
    values_do_not_shape hset hlarge byParity () twin_uses
  cases hrun.symm.trans hsame
  rw [eq_true hlevel] at hagree
  rw [eq_false hbelow] at hagree'
  -- there is as much memory for the first two, and enough for the third
  have hsuffices := holds_of_ok hrun
    (fun views _ => ∀ view ∈ views, Event.MemorySuffices view.2.trace) (by decide +kernel)
  have hsuffices' := holds_of_ok hrun''
    (fun views _ => ∀ view ∈ views, Event.MemorySuffices view.2.trace) (by decide +kernel)
  refine ⟨views, views', views'', after, after', after'', hrun, hrun', hrun'', ?_, ?_, ?_,
    hagree (.inl ⟨trivial, rfl⟩), hagree' (.inr ⟨hsuffices, hsuffices'⟩)⟩
  · exact holds_of_ok hrun (fun views _ => views.map (fun view => decide view.1.KeyExists) = _)
      (by decide +kernel)
  · exact holds_of_ok hrun' (fun views _ => views.map (fun view => view.2.tree.size) = _)
      (by decide +kernel)
  · exact holds_of_ok hrun'' (fun views _ => views.map (fun view => view.2.tree.arena.capacity) = _)
      (by decide +kernel)

/-- A set and a map, each in its storage, that are given the same key and do not agree then. -/
def PartsAfterInsertion (arena : Arena Nat Unit) (arena' : Arena Nat V) (value : V) : Prop :=
  ∃ views views' after after',
    run (exhibit (OrderedSet.Operation.perform (Comparator.ofOrder compare).recording))
      [(.insert 1 : OrderedSet.Operation Unit Nat)] (.ofArena arena { memory := () }) =
        .ok views after ∧
    run (exhibit (OrderedMap.Operation.perform (Comparator.ofOrder compare).recording))
      [(.insert 1 value : OrderedMap.Operation Unit Nat V)] (.ofArena arena' { memory := () }) =
        .ok views' after' ∧
    ¬List.Forall₂ (Agree True) views views'

/-- The premises on storage are needed: with values of two thousand bytes the map has a capacity of
one where the set has four, without memory for its slots the map is refused what the set is not,
and a map that is built for a hundred entries keeps that capacity. -/
theorem values_shape_storage :
    PartsAfterInsertion (Arena.empty ⟨8, 24⟩) (Arena.empty ⟨8, 2024⟩)
        (fun _ => 0 : Fin 2000 → UInt8) ∧
      PartsAfterInsertion (Arena.empty ⟨8, 24⟩) (Arena.empty ⟨0, 32⟩) (10 : Nat) ∧
      ∃ arena' : Arena Nat Nat, Arena.withCapacity ⟨128, 32⟩ 100 = .ok arena' ∧
        PartsAfterInsertion (Arena.empty ⟨128, 24⟩) arena' 10 := by
  refine ⟨⟨_, _, _, _, rfl, rfl, ?_⟩, ⟨_, _, _, _, rfl, rfl, ?_⟩,
    _, rfl, ⟨_, _, _, _, rfl, rfl, ?_⟩⟩
  · intro hagree
    have hcapacity : 4 = 1 := (List.forall₂_cons.1 hagree).1.capacity trivial
    exact absurd hcapacity (by decide)
  · intro hagree
    have hsize : 1 = 0 := congrArg LinkedTree.size (List.forall₂_cons.1 hagree).1.skeleton
    exact absurd hsize (by decide)
  · intro hagree
    have hcapacity : 4 = 100 := (List.forall₂_cons.1 hagree).1.capacity trivial
    exact absurd hcapacity (by decide)

end Engine

end RedBlack
