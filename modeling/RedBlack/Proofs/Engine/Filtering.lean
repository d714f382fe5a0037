import RedBlack.Proofs.Engine.Traversal
import RedBlack.Proofs.Engine.Twins

/-!
# Filters as Cursor Runs

A filter does what a cursor does that goes to the end: for each call of `keep` the cursor yields
the next entry, puts the value that `keep` has left in its place, and removes it if it does not
stay (`Call.moves`). The cursor goes through the same trees and asks the same questions, whatever
the comparator answers (`Snapshot.followsCalls_retain`); only the values that the filter lets go of
stay with the user of the cursor.
-/

namespace RedBlack

open RedBlack.Tree (Frame Path)

variable {σ τ K V : Type}

/-! ## Calls -/

namespace Call

/-- The entry that stays, with the value left in it. -/
def kept (call : Call K V) : Option (K × V) :=
  if call.stays then some (call.entry.1, call.left) else none

/-- The entry that is removed, with the value left in it. -/
def dropped (call : Call K V) : Option (K × V) :=
  if call.stays then none else some (call.entry.1, call.left)

/-- What a cursor does in place of the filter. -/
def moves (call : Call K V) : List (Cursor.Move V) :=
  .replace call.left :: if call.stays then [] else [.remove]

/-- What the cursor answers. -/
def outcomes (call : Call K V) : List (Cursor.Outcome K V) :=
  .yielded (some call.entry) ::
    if call.stays then [] else [.removed (.ok (call.entry.1, call.left))]

end Call

namespace Cursor.Move

/-- The same use of a cursor, without another value. -/
def plain : Move V → Move V
  | replace _ => next
  | move => move

/-- The same use of a cursor over keys alone. -/
def bare : Move V → Move Unit
  | next | replace _ => next
  | hasNext => hasNext
  | remove => remove

/-- No other value was put in than the one that was there. -/
def Restores : Move V → Outcome K V → Prop
  | replace value, .yielded (some entry) => value = entry.2
  | _, _ => True

theorem plain_plain (move : Move V) : move.plain.plain = move.plain := by
  cases move with
  | _ => rfl

theorem bare_plain (move : Move V) : move.plain.bare = move.bare := by
  cases move with
  | _ => rfl

theorem twin_bare (move : Move V) : Twin move.bare move := by
  cases move with
  | next => exact .next
  | replace value => exact .replace value
  | hasNext => exact .hasNext
  | remove => exact .remove

theorem twin_bare_plain (move : Move V) : Twin move.bare move.plain :=
  move.bare_plain ▸ move.plain.twin_bare

end Cursor.Move

/-- The entry that was removed, if one was. -/
def Cursor.Outcome.removal : Cursor.Outcome K V → Option (K × V)
  | removed (.ok entry) => some entry
  | _ => none

/-- A cursor that follows a filter removes the entries that do not stay. -/
theorem Call.removal_outcomes (call : Call K V) :
    call.outcomes.filterMap Cursor.Outcome.removal = call.dropped.toList := by
  rw [outcomes, dropped]
  cases call.stays with
  | true => rfl
  | false => rfl

theorem Call.removals (calls : List (Call K V)) :
    (calls.flatMap Call.outcomes ++ [Cursor.Outcome.yielded none]).filterMap
      Cursor.Outcome.removal = calls.filterMap Call.dropped := by
  rw [List.filterMap_append, List.filterMap_flatMap, List.filterMap_eq_flatMap_toList dropped]
  simp only [removal_outcomes]
  exact List.append_nil _

/-- A filter that changes no value puts in what was there. -/
theorem Call.restores {calls : List (Call K V)} (hleft : ∀ call ∈ calls, call.left = call.entry.2) :
    List.Forall₂ Cursor.Move.Restores (calls.flatMap Call.moves ++ [.next])
      (calls.flatMap Call.outcomes ++ [.yielded none]) := by
  induction calls with
  | nil => exact .cons trivial .nil
  | cons call calls ih =>
    obtain ⟨hfirst, hrest⟩ := List.forall_mem_cons.1 hleft
    refine .cons hfirst ?_
    cases call.stays with
    | true => exact ih hrest
    | false => exact .cons trivial (ih hrest)

namespace Snapshot

/-! ## Cursors and what was released -/

/-- The same snapshot, after other values were released. -/
def withReleased (snapshot : Snapshot σ K V) (released : Array V) : Snapshot σ K V :=
  { snapshot with released }

variable {comparator : Comparator σ K} {snapshot after : Snapshot σ K V}
  {path up place : Path (Cell K V)} {below : Tree (Cell K V)} {frame : Frame (Cell K V)}
  {removed : K × V}

/-- Taking a node out has nothing to do with the values that were released. -/
theorem cut_withReleased (hcut : snapshot.cut comparator below frame up = ((removed, place), after))
    (released : Array V) :
    (snapshot.withReleased released).cut comparator below frame up =
      ((removed, place), after.withReleased released) := by
  rw [cut] at hcut ⊢
  cases hcut
  rfl

/-- The first of several uses, and the others. -/
theorem moves_cons_of_eq {mid : Snapshot σ K V} {start next last : Place K V}
    {first : Cursor.Move V} {rest : List (Cursor.Move V)} {outcome : Cursor.Outcome K V}
    {outcomes : List (Cursor.Outcome K V)}
    (hfirst : snapshot.move comparator start first = (outcome, next, mid))
    (hrest : mid.moves comparator next rest = (outcomes, last, after)) :
    snapshot.moves comparator start (first :: rest) = (outcome :: outcomes, last, after) := by
  simp only [moves, hfirst, hrest]

/-- Where there is a next entry, it is yielded and gets another value. -/
theorem move_replace_of_climb (comparator : Comparator σ K) (snapshot : Snapshot σ K V)
    (hclimb : Path.climb .left path .nil = some (below, frame, up)) (removable : Bool) (value : V) :
    snapshot.move comparator ⟨path, removable⟩ (.replace value) =
      (.yielded (some frame.entry.entry),
        ⟨Path.pass below frame (frame.entry.withValue value) up, true⟩,
        snapshot.withTree
          (Tree.nil.under (Path.pass below frame (frame.entry.withValue value) up))) := by
  simp only [move, nextReplacing, hclimb]

/-- Removing right after an entry leads to the place of its key. -/
theorem move_remove_of_cut {cell : Cell K V}
    (hcut : snapshot.cut comparator frame.sibling ⟨.right, frame.color, cell, below⟩ up =
      ((removed, place), after)) :
    snapshot.move comparator ⟨Path.pass below frame cell up, true⟩ .remove =
      (.removed (.ok removed), ⟨place, false⟩, after) := by
  simp only [move, removeAt_pass, hcut]

/-- Where there is none, the cursor yields nothing and stays. -/
theorem move_next_of_none (comparator : Comparator σ K) (snapshot : Snapshot σ K V)
    (hclimb : Path.climb .left path .nil = none) (removable : Bool) :
    snapshot.move comparator ⟨path, removable⟩ .next =
      (.yielded none, ⟨path, removable⟩, snapshot) := by
  rw [move, Place.next_of_none hclimb]

/-- From a place on, a recording filter makes some more calls and lets go of what they do not keep,
and the cursor at the place that follows these calls goes through the same trees. -/
def FollowsCalls (comparator : Comparator σ K) (path : Path (Cell K V)) (snapshot : Snapshot σ K V)
    (state : τ × List (Call K V)) (result : (τ × List (Call K V)) × Snapshot σ K V) : Prop :=
  ∃ calls,
    result.1.2 = state.2 ++ calls ∧
    result.2.released.toList =
      snapshot.released.toList ++ (calls.filterMap Call.dropped).map Prod.snd ∧
    ∀ removable released, ∃ last : Place K V,
      (snapshot.withReleased released).moves comparator ⟨path, removable⟩
          (calls.flatMap Call.moves ++ [.next]) =
        (calls.flatMap Call.outcomes ++ [.yielded none], last, result.2.withReleased released)

/-- A filter is the cursor run whose moves are those of its calls, up to the end. -/
theorem followsCalls_retain (comparator : Comparator σ K) (keep : K → V → StateM τ (Bool × V))
    (htree : Tree.nil.under path = snapshot.layout.tree) (state : τ × List (Call K V)) :
    FollowsCalls comparator path snapshot state
      (snapshot.retain comparator (recording keep) path state) := by
  refine retain_induction comparator (recording keep)
    (motive := FollowsCalls comparator) ?_ ?_ ?_ htree state
  -- no entry is left, so there is no call, and the cursor yields nothing
  · intro path snapshot state hclimb
    refine ⟨[], (List.append_nil _).symm, (List.append_nil _).symm, fun removable released => ?_⟩
    exact ⟨_, moves_cons_of_eq (move_next_of_none comparator _ hclimb removable) rfl⟩
  · intro path snapshot state below frame up value state' result htree hclimb hkeep passed hrest
    obtain ⟨calls, hcalls, hreleased, hmoves⟩ := hrest
    let call : Call K V := ⟨frame.entry.entry, true, value⟩
    have hcall : state'.2 = state.2 ++ [call] := (of_recording_eq hkeep).2
    refine ⟨call :: calls, ?_, hreleased, ?_⟩
    · rw [hcalls, hcall, List.append_assoc]
      rfl
    -- the entry stays, so the cursor goes on behind it
    · intro removable released
      obtain ⟨last, hrun⟩ := hmoves true released
      exact ⟨last, moves_cons_of_eq (move_replace_of_climb comparator _ hclimb _ _) hrun⟩
  · intro path snapshot state below frame up value state' removed place after result htree hclimb
      hkeep cell visited hcut hrest
    obtain ⟨calls, hcalls, hreleased, hmoves⟩ := hrest
    let call : Call K V := ⟨frame.entry.entry, false, value⟩
    have hcall : state'.2 = state.2 ++ [call] := (of_recording_eq hkeep).2
    have hsame : snapshot.released = after.released :=
      congrArg (fun run => run.2.released) hcut
    obtain ⟨rfl, -⟩ := of_cut_eq hcut
    refine ⟨call :: calls, ?_, ?_, ?_⟩
    · rw [hcalls, hcall, List.append_assoc]
      rfl
    · rw [hreleased, hsame, release, Array.toList_appendList, List.append_assoc]
      rfl
    -- the entry is removed with the value left in it, and the cursor goes on where its key leads
    · intro removable released
      obtain ⟨last, hrun⟩ := hmoves false released
      exact ⟨last, moves_cons_of_eq (move_replace_of_climb comparator _ hclimb _ _)
        (moves_cons_of_eq (move_remove_of_cut (cut_withReleased hcut released)) hrun)⟩

/-! ## Cursors that change no value -/

/-- The same snapshot of keys alone. -/
def bare (snapshot : Snapshot σ K V) : Snapshot σ K Unit :=
  { layout := { snapshot.layout with tree := snapshot.layout.tree.map Cell.skeleton }
    memory := snapshot.memory
    trace := snapshot.trace }

theorem twins_bare (snapshot : Snapshot σ K V) : Twins True True snapshot.bare snapshot :=
  { tree := rfl
    vacated := rfl
    capacity := fun _ => rfl
    least := fun _ => rfl
    most := fun _ => rfl
    memory := rfl
    trace := rfl }

/-- Values that a cursor puts in do not shape the tree. -/
theorem skeleton_moves_plain (comparator : Comparator σ K) {start : Place K V}
    (htree : Tree.nil.under start.path = snapshot.layout.tree) (moves : List (Cursor.Move V)) :
    (snapshot.moves comparator start (moves.map Cursor.Move.plain)).2.2.layout.skeleton =
      (snapshot.moves comparator start moves).2.2.layout.skeleton := by
  -- both have the same twin, the cursor over keys alone
  have hplain : List.Forall₂ Cursor.Move.Twin (moves.map Cursor.Move.bare)
      (moves.map Cursor.Move.plain) := by
    rw [List.forall₂_map_left_iff, List.forall₂_map_right_iff]
    exact List.forall₂_same.2 fun move _ => move.twin_bare_plain
  have hmoves : List.Forall₂ Cursor.Move.Twin (moves.map Cursor.Move.bare) moves := by
    rw [List.forall₂_map_left_iff]
    exact List.forall₂_same.2 fun move _ => move.twin_bare
  have hplain := snapshot.twins_bare.moves comparator htree hplain
  have hmoves := snapshot.twins_bare.moves comparator htree hmoves
  exact (hplain.skeleton_eq_of_level trivial).symm.trans (hmoves.skeleton_eq_of_level trivial)

/-- A cursor that puts in the value that was there changes nothing. -/
theorem move_plain (comparator : Comparator σ K) {start : Place K V}
    (htree : Tree.nil.under start.path = snapshot.layout.tree) {move : Cursor.Move V}
    (hrestores : move.Restores (snapshot.move comparator start move).1) :
    snapshot.move comparator start move.plain = snapshot.move comparator start move := by
  cases move with
  | replace value =>
    obtain ⟨path, removable⟩ := start
    rw [Cursor.Move.plain]
    rcases hclimb : Path.climb .left path .nil with _ | ⟨below, frame, up⟩
    · rw [move_next_of_none comparator snapshot hclimb, Snapshot.move, nextReplacing]
      simp only [hclimb]
    · rw [move_replace_of_climb comparator snapshot hclimb] at hrestores ⊢
      obtain rfl : value = frame.entry.value := hrestores
      obtain ⟨hside, hunder⟩ := Path.of_climb_eq_some hclimb
      have hpass : Tree.nil.under (Path.pass below frame
          (frame.entry.withValue frame.entry.value) up) = snapshot.layout.tree :=
        (Path.nil_under_pass frame.entry hside).trans (hunder.symm.trans htree)
      rw [hpass, Snapshot.move, Place.next_of_climb hclimb]
      rfl
  | _ => rfl

theorem moves_plain (comparator : Comparator σ K) {start : Place K V}
    (htree : Tree.nil.under start.path = snapshot.layout.tree) {moves : List (Cursor.Move V)}
    (hrestores : List.Forall₂ Cursor.Move.Restores moves
      (snapshot.moves comparator start moves).1) :
    snapshot.moves comparator start (moves.map Cursor.Move.plain) =
      snapshot.moves comparator start moves := by
  induction moves generalizing snapshot start with
  | nil => rfl
  | cons move moves ih =>
    obtain ⟨hfirst, hrest⟩ := List.forall₂_cons.1 hrestores
    rw [List.map_cons]
    refine moves_cons_of_eq (move_plain comparator htree hfirst) ?_
    exact ih (nil_under_move htree move) hrest

end Snapshot

/-! ## Filters -/

/-- What a filter does, in terms of its calls of `keep` and of the cursor runs that do the same: it
ends in the state `final`. -/
structure Engine.Replays (comparator : Comparator σ K) (keep : K → V → StateM τ (Bool × V))
    (state : τ) (context : Context σ K V) (calls : List (Call K V)) (final : τ)
    (after : Context σ K V) : Prop where
  /-- The filter ends. -/
  ends : retain comparator keep state context = .ok final after
  /-- These are the calls, and there are no others. -/
  calls_eq : retain comparator (recording keep) (state, []) context = .ok (final, calls) after
  /-- The values of the entries that do not stay are released in the order of the calls. -/
  released : after.released.toList =
    context.released.toList ++ (calls.filterMap Call.dropped).map Prod.snd
  /-- A cursor that goes to the end, puts in the same values and removes the same entries leaves
  the same tree, asks the same questions and reports the same events. -/
  cursor : ∃ last, (Cursor.start >>= Cursor.moves comparator
      (calls.flatMap Call.moves ++ [Cursor.Move.next])) context =
    .ok (calls.flatMap Call.outcomes ++ [.yielded none], last)
      { after with released := context.released }
  /-- A cursor that only goes to the end and removes the same entries leaves the same tree but
  for the values, and exactly the same if no value was changed. -/
  plain : ∃ outcomes last new, (Cursor.start >>= Cursor.moves comparator
      ((calls.flatMap Call.moves ++ [Cursor.Move.next]).map Cursor.Move.plain)) context =
    .ok (outcomes, last) new ∧
    new.tree.skeleton = after.tree.skeleton ∧
    ((∀ call ∈ calls, call.left = call.entry.2) → new.tree = after.tree)

/-- A filter on a tree in order does what the cursors do that follow its calls. -/
theorem Snapshot.replays (comparator : Comparator σ K) (keep : K → V → StateM τ (Bool × V))
    {snapshot after : Snapshot σ K V} {state final : τ} {calls : List (Call K V)}
    (hresult : snapshot.retain comparator (recording keep) (snapshot.layout.tree.spine .left [])
      (state, []) = ((final, calls), after))
    {tree : LinkedTree K V} (hlaid : tree.LaidOut snapshot.layout) :
    ∃ new : LinkedTree K V, new.LaidOut after.layout ∧
      Engine.Replays comparator keep state (snapshot.around tree) calls final
        (after.around new) := by
  have htree := Place.nil_under_start snapshot.layout.tree
  have hplain := retain_recording comparator keep htree (state, [])
  obtain ⟨made, hmade, hreleased, hmoves⟩ := followsCalls_retain comparator keep htree (state, [])
  obtain ⟨last, hcursor⟩ := hmoves false snapshot.released
  rw [Place.start, hresult] at hplain hmade hreleased hcursor
  obtain rfl : calls = made := hmade
  have hrun : snapshot.moves comparator (.start snapshot.layout.tree)
      (calls.flatMap Call.moves ++ [.next]) =
        (calls.flatMap Call.outcomes ++ [.yielded none], last,
          after.withReleased snapshot.released) := hcursor
  -- every run leaves the one tree that the layout determines
  obtain ⟨new, hends, hnew⟩ := Engine.Performs.retain comparator keep state snapshot tree hlaid
  obtain ⟨recorded, hcalls, hrecorded⟩ :=
    Engine.Performs.retain comparator (recording keep) (state, []) snapshot tree hlaid
  obtain ⟨run, hmoved, hmovedlaid⟩ :=
    Engine.Performs.traverse comparator (calls.flatMap Call.moves ++ [.next]) snapshot tree hlaid
  obtain ⟨bare, hbare, hbarelaid⟩ := Engine.Performs.traverse comparator
    ((calls.flatMap Call.moves ++ [Cursor.Move.next]).map Cursor.Move.plain) snapshot tree hlaid
  have hskeleton := skeleton_moves_plain comparator htree (calls.flatMap Call.moves ++ [.next])
  rw [hplain] at hends hnew
  rw [hresult] at hcalls hrecorded
  rw [hrun] at hmoved hmovedlaid hskeleton
  cases hnew.unique hrecorded
  cases hnew.unique hmovedlaid
  refine ⟨new, hnew, hends, hcalls, hreleased, ⟨_, hmoved⟩, _, _, _, hbare, ?_, fun hleft => ?_⟩
  · exact hbarelaid.skeleton_eq hnew hskeleton
  · rw [moves_plain comparator htree (hrun.symm ▸ Call.restores hleft), hrun] at hbarelaid
    exact hbarelaid.unique hnew

end RedBlack
