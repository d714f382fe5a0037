import RedBlack.Proofs.Engine.InOrder
import RedBlack.Proofs.Linked.Determination

/-!
# Traversals Without an Order

What remains true of cursors and filters when the comparator is no order, or changes its mind.
After a removal, the comparator then may lead the cursor anywhere, to entries that it has
visited or past entries that it has not.

A cursor still stands between the entries before and after it: what it yields without removals
is a suffix of the entries (`Snapshot.moves_next`), and what it removes is the entry that it
yielded last (`Cursor.held`). A filter still ends, since a removal leaves fewer entries to come
back to (`Snapshot.calls_retain_le`), and what becomes of an entry is said by the answers about
this entry alone (`Operation.Visits.eq_filterMap`).
-/

namespace RedBlack

open RedBlack.Tree (Frame Path)

variable {σ τ K V : Type}

/-! ## Cursors -/

/-- The entry that a cursor yielded last and that was not removed since, with the value that was
put into it, after one more use. -/
def Cursor.Move.hold (held : Option (K × V)) :
    Cursor.Move V → Cursor.Outcome K V → Option (K × V)
  | .replace value, .yielded (some entry) => some (entry.1, value)
  | _, .yielded (some entry) => some entry
  | _, .removed (.ok _) => none
  | _, _ => held

/-- The entry that a cursor yielded last and that was not removed since. -/
def Cursor.held : Option (K × V) → List (Cursor.Move V) → List (Cursor.Outcome K V) →
    Option (K × V)
  | held, move :: moves, outcome :: outcomes => Cursor.held (move.hold held outcome) moves outcomes
  | held, _, _ => held

/-- The entry that may be removed. -/
def Place.held (place : Place K V) : Option (K × V) :=
  place.last?.map fun (_, frame, _) => frame.entry.entry

/-- Right after an entry, this entry may be removed. -/
theorem Place.held_pass (below : Tree (Cell K V)) (frame : Frame (Cell K V)) (cell : Cell K V)
    (up : Path (Cell K V)) :
    (⟨Path.pass below frame cell up, true⟩ : Place K V).held = some cell.entry := by
  rw [held, last?, if_pos rfl, Path.climb_right_pass]
  rfl

/-- Moving on yields the first entry after the place, which then lies before it. -/
theorem Place.next_eq (place : Place K V) :
    place.next.1 = ((Path.after place.path).map Cell.entry)[0]? ∧
      Path.before place.next.2.path = Path.before place.path ++ (Path.after place.path).take 1 ∧
      Path.after place.next.2.path = (Path.after place.path).drop 1 := by
  rw [next, step]
  rcases hclimb : Path.climb .left place.path .nil with _ | ⟨below, frame, up⟩
  · rw [(Path.of_climb_left_eq_none hclimb).2]
    exact ⟨rfl, (List.append_nil _).symm, rfl⟩
  · rw [Path.after_eq_cons_of_climb frame.entry hclimb]
    exact ⟨rfl, Path.before_pass frame.entry hclimb, rfl⟩

namespace Snapshot

variable {comparator : Comparator σ K} {snapshot : Snapshot σ K V} {place : Place K V}

/-- A cursor may remove what it yielded last. -/
theorem held_move (comparator : Comparator σ K) (snapshot : Snapshot σ K V) (place : Place K V)
    (move : Cursor.Move V) :
    (snapshot.move comparator place move).2.1.held =
      move.hold place.held (snapshot.move comparator place move).1 := by
  cases move with
  | next =>
    rw [Snapshot.move, Place.next, Place.step]
    rcases Path.climb .left place.path .nil with _ | ⟨below, frame, up⟩
    · rfl
    · exact Place.held_pass ..
  | replace value =>
    rw [Snapshot.move, nextReplacing]
    rcases Path.climb .left place.path .nil with _ | ⟨below, frame, up⟩
    · rfl
    · exact Place.held_pass ..
  | hasNext => rfl
  | remove =>
    rw [Snapshot.move, removeAt]
    rcases hlast : place.last? with _ | ⟨below, frame, up⟩
    all_goals rfl

theorem held_moves (comparator : Comparator σ K) (snapshot : Snapshot σ K V) (place : Place K V)
    (moves : List (Cursor.Move V)) :
    (snapshot.moves comparator place moves).2.1.held =
      Cursor.held place.held moves (snapshot.moves comparator place moves).1 := by
  induction moves generalizing snapshot place with
  | nil => rfl
  | cons move moves ih =>
    rw [Snapshot.moves, Cursor.held, ← held_move comparator snapshot place move]
    exact ih _ _

/-- Removing gives back what was held. -/
theorem fst_removeAt (comparator : Comparator σ K) (snapshot : Snapshot σ K V)
    (place : Place K V) :
    (snapshot.removeAt comparator place).1 =
      place.held.elim (.error .invalidCursorState) .ok := by
  rw [removeAt, Place.held]
  rcases place.last? with _ | ⟨below, frame, up⟩
  · rfl
  · rfl

/-- Moving on without removals yields the entries after the place, one by one. -/
theorem moves_next (comparator : Comparator σ K) (snapshot : Snapshot σ K V) (place : Place K V)
    (count : Nat) :
    let (outcomes, last, after) :=
      snapshot.moves comparator place (List.replicate count .next)
    outcomes = (List.range count).map
        (fun i => .yielded ((Path.after place.path).map Cell.entry)[i]?) ∧
      Path.before last.path = Path.before place.path ++ (Path.after place.path).take count ∧
      Path.after last.path = (Path.after place.path).drop count ∧
      after = snapshot := by
  induction count generalizing place with
  | zero => exact ⟨rfl, (List.append_nil _).symm, rfl, rfl⟩
  | succ count ih =>
    obtain ⟨houtcomes, hbefore, hafter, hsame⟩ := ih place.next.2
    obtain ⟨hentry, hpassed, hahead⟩ := place.next_eq
    rw [List.replicate_succ, Snapshot.moves, Snapshot.move]
    refine ⟨?_, ?_, ?_, hsame⟩
    · rw [houtcomes, hahead, hentry, List.range_succ_eq_map, List.map_cons, List.map_map]
      simp [Function.comp_def]
    · rw [hbefore, hpassed, hahead, List.append_assoc, ← List.take_add, Nat.add_comm]
    · rw [hafter, hahead, List.drop_drop, Nat.add_comm]

end Snapshot

namespace Engine.Performs

variable {before : Snapshot σ K V} {place : Place K V}

/-- An action that keeps the layout keeps the tree. -/
theorem unchanged {α : Type} {action : EngineM σ K V α} {answer : α}
    (h : Performs action before before answer) {tree : LinkedTree K V}
    (hlaid : tree.LaidOut before.layout) :
    action (before.around tree) = .ok answer (before.around tree) := by
  obtain ⟨new, haction, hnew⟩ := h tree hlaid
  cases hnew.unique hlaid
  exact haction

/-- Using a new cursor. -/
theorem traverse (comparator : Comparator σ K) (moves : List (Cursor.Move V))
    (before : Snapshot σ K V) :
    Performs (Cursor.start >>= Cursor.moves comparator moves) before
      (before.moves comparator (.start before.layout.tree) moves).2.2
      ((before.moves comparator (.start before.layout.tree) moves).1,
        (before.moves comparator (.start before.layout.tree) moves).2.1.cursor) :=
  (start before).bind (.moves comparator (Place.nil_under_start before.layout.tree) moves)

/-- A cursor moves on without removals. -/
theorem moves_next (comparator : Comparator σ K)
    (htree : Tree.nil.under place.path = before.layout.tree) (count : Nat) :
    ∃ last : Place K V,
      Performs (Cursor.moves comparator (List.replicate count .next) place.cursor) before before
        ((List.range count).map fun i => .yielded ((Path.after place.path).map Cell.entry)[i]?,
          last.cursor) ∧
      Tree.nil.under last.path = before.layout.tree ∧
      Path.before last.path = Path.before place.path ++ (Path.after place.path).take count ∧
      Path.after last.path = (Path.after place.path).drop count := by
  obtain ⟨houtcomes, hbefore, hafter, hsame⟩ := before.moves_next comparator place count
  have hmoves := moves comparator htree (List.replicate count .next)
  have hlast := Snapshot.nil_under_moves comparator htree (List.replicate count .next)
  rw [houtcomes, hsame] at hmoves
  rw [hsame] at hlast
  exact ⟨_, hmoves, hlast, hbefore, hafter⟩

/-- A new cursor yields the first entries and then stands between them and the others. -/
theorem start_next (comparator : Comparator σ K) {front back : List (Cell K V)}
    (h : before.cells = front ++ back) :
    ∃ last : Place K V,
      Performs (Cursor.start >>= Cursor.moves comparator (List.replicate front.length .next))
        before before
        (front.map fun cell => .yielded (some cell.entry), last.cursor) ∧
      Tree.nil.under last.path = before.layout.tree ∧
      Path.before last.path = front ∧
      Path.after last.path = back := by
  have hnone := Place.before_start before.layout.tree
  have hall := (Place.after_start before.layout.tree).trans h
  obtain ⟨last, hmoves, hlast, hbefore, hafter⟩ :=
    moves_next comparator (Place.nil_under_start before.layout.tree) front.length
  rw [hnone, hall, List.take_left, List.nil_append] at hbefore
  rw [hall, List.drop_left] at hafter
  refine ⟨last, (start before).bind ?_, hlast, hbefore, hafter⟩
  -- the first answers are about the entries in front
  have houtcomes : (List.range front.length).map (fun i =>
      Cursor.Outcome.yielded ((Path.after (Place.start before.layout.tree).path).map
        Cell.entry)[i]?) = front.map fun cell => .yielded (some cell.entry) := by
    refine List.ext_getElem (by simp) fun i hi _ => ?_
    rw [List.length_map, List.length_range] at hi
    simp [hall, List.getElem?_append_left, hi]
  exact houtcomes ▸ hmoves

end Engine.Performs

/-! ## Filters -/

/-- A call of `keep`: the entry that it was given, its answer, and the value that it left. -/
structure Call (K V : Type) where
  /-- The entry. -/
  entry : K × V
  /-- Whether the entry stays. -/
  stays : Bool
  /-- The value left in its place. -/
  left : V
deriving DecidableEq

/-- Keep a record of the calls. -/
def recording (keep : K → V → StateM τ (Bool × V)) (key : K) (value : V) :
    StateM (τ × List (Call K V)) (Bool × V) :=
  fun (state, calls) =>
    let ((stays, left), state) := keep key value state
    ((stays, left), state, calls ++ [⟨(key, value), stays, left⟩])

/-- A recorded call is one of `keep`, which is added to the record. -/
theorem of_recording_eq {keep : K → V → StateM τ (Bool × V)} {key : K} {value left : V}
    {stays : Bool} {state state' : τ × List (Call K V)}
    (h : recording keep key value state = ((stays, left), state')) :
    keep key value state.1 = ((stays, left), state'.1) ∧
      state'.2 = state.2 ++ [⟨(key, value), stays, left⟩] := by
  cases h
  exact ⟨rfl, rfl⟩

/-- A visit to a cell. -/
structure Visit (K V : Type) where
  /-- The cell as it was found. -/
  cell : Cell K V
  /-- Whether it stays. -/
  stays : Bool
  /-- The value left in its place. -/
  left : V

namespace Visit

/-- The call of `keep` that was made. -/
def call (visit : Visit K V) : Call K V :=
  ⟨visit.cell.entry, visit.stays, visit.left⟩

/-- What becomes of a cell in some visits: it is gone if one of them found that it does not
stay, and otherwise has the value that was left in it last. -/
def settle (visits : List (Visit K V)) (cell : Cell K V) : Option (Cell K V) :=
  let own := visits.filter fun visit => visit.cell.slot == cell.slot
  if own.all Visit.stays then some (cell.withValue ((own.map Visit.left).getLastD cell.value))
  else none

variable {visits : List (Visit K V)} {front back : List (Cell K V)} {cell : Cell K V}
  {stays : Bool} {left : V}

/-- Visits to other cells do not matter. -/
theorem settle_cons_of_ne {other : Cell K V} (h : cell.slot ≠ other.slot) :
    settle (⟨cell, stays, left⟩ :: visits) other = settle visits other := by
  simp [settle, h]

/-- A visited cell that stays goes on with the value left in it. -/
theorem settle_cons_stays :
    settle (⟨cell, true, left⟩ :: visits) cell = settle visits (cell.withValue left) := by
  have hown : (⟨cell, true, left⟩ :: visits).filter (·.cell.slot == cell.slot) =
      ⟨cell, true, left⟩ :: visits.filter (·.cell.slot == cell.slot) :=
    List.filter_cons_of_pos (beq_self_eq_true cell.slot)
  rw [settle, hown, List.all_cons, Bool.true_and, List.map_cons, List.getLastD_cons]
  rfl

/-- One that does not stay is gone. -/
theorem settle_cons_leaves : settle (⟨cell, false, left⟩ :: visits) cell = none := by
  simp [settle]

/-- A visit matters to the visited cell alone. -/
theorem filterMap_settle_cons (h : ((front ++ cell :: back).map Cell.slot).Nodup) :
    (front ++ cell :: back).filterMap (settle (⟨cell, stays, left⟩ :: visits)) =
      front.filterMap (settle visits) ++
        ([cell].filterMap (settle (⟨cell, stays, left⟩ :: visits)) ++
          back.filterMap (settle visits)) := by
  rw [List.map_append, List.map_cons, List.perm_middle.nodup_iff, List.nodup_cons,
    ← List.map_append] at h
  have hne : ∀ other ∈ front ++ back, cell.slot ≠ other.slot := by
    intro other hother heq
    exact h.1 (heq ▸ List.mem_map_of_mem hother)
  have hcons : cell :: back = [cell] ++ back := rfl
  rw [List.filterMap_append, hcons, List.filterMap_append]
  congr 1
  · exact List.filterMap_congr fun other hother =>
      settle_cons_of_ne (hne other (List.mem_append_left _ hother))
  · congr 1
    exact List.filterMap_congr fun other hother =>
      settle_cons_of_ne (hne other (List.mem_append_right _ hother))

end Visit

namespace Operation

/-- Visits to one stored cell after another, each with the answer of `keep`: a cell that stays
has the value that was left in it from then on, and one that does not is gone. -/
inductive Visits (keep : K → V → StateM τ (Bool × V)) :
    τ → List (Cell K V) → List (Visit K V) → τ → List (Cell K V) → Prop
  /-- No cell is visited any more. -/
  | done {state : τ} {cells : List (Cell K V)} : Visits keep state cells [] state cells
  /-- A cell stays. -/
  | keeps {state state' final : τ} {cells' : List (Cell K V)} {visits : List (Visit K V)}
      (front : List (Cell K V)) (cell : Cell K V) (back : List (Cell K V)) {value : V} :
      keep cell.key cell.value state = ((true, value), state') →
        Visits keep state' (front ++ cell.withValue value :: back) visits final cells' →
          Visits keep state (front ++ cell :: back) (⟨cell, true, value⟩ :: visits) final cells'
  /-- A cell is removed. -/
  | drops {state state' final : τ} {cells' : List (Cell K V)} {visits : List (Visit K V)}
      (front : List (Cell K V)) (cell : Cell K V) (back : List (Cell K V)) {value : V} :
      keep cell.key cell.value state = ((false, value), state') →
        Visits keep state' (front ++ back) visits final cells' →
          Visits keep state (front ++ cell :: back) (⟨cell, false, value⟩ :: visits) final cells'

variable {keep : K → V → StateM τ (Bool × V)} {state final : τ} {cells cells' : List (Cell K V)}
  {visits : List (Visit K V)}

/-- A filter that records its calls visits the cells of these calls. -/
theorem Sifts.exists_visits {state final : τ × List (Call K V)} {released : List V}
    (h : Sifts (recording keep) state cells final cells' released) :
    ∃ visits, final.2 = state.2 ++ visits.map Visit.call ∧
      Visits keep state.1 cells visits final.1 cells' := by
  induction h with
  | done => exact ⟨[], (List.append_nil _).symm, .done⟩
  | keeps front cell back hkeep _ ih =>
    obtain ⟨visits, hcalls, hvisits⟩ := ih
    obtain ⟨hkeep, hcall⟩ := of_recording_eq hkeep
    refine ⟨⟨cell, true, _⟩ :: visits, ?_, .keeps front cell back hkeep hvisits⟩
    rw [hcalls, hcall, List.append_assoc]
    rfl
  | drops front cell back hkeep _ ih =>
    obtain ⟨visits, hcalls, hvisits⟩ := ih
    obtain ⟨hkeep, hcall⟩ := of_recording_eq hkeep
    refine ⟨⟨cell, false, _⟩ :: visits, ?_, .drops front cell back hkeep hvisits⟩
    rw [hcalls, hcall, List.append_assoc]
    rfl

/-- What becomes of the cells is said for each by the visits to it. -/
theorem Visits.eq_filterMap (h : Visits keep state cells visits final cells')
    (hnodup : (cells.map Cell.slot).Nodup) : cells' = cells.filterMap (Visit.settle visits) := by
  induction h with
  | done => exact List.filterMap_some.symm
  | @keeps _ _ _ _ _ front cell back value _ _ ih =>
    have hsame : (front ++ cell.withValue value :: back).map Cell.slot =
        (front ++ cell :: back).map Cell.slot := by
      rw [List.map_append, List.map_append]
      rfl
    rw [ih (hsame ▸ hnodup), Visit.filterMap_settle_cons hnodup, List.filterMap_append]
    congr 1
    simp only [List.filterMap_cons, Visit.settle_cons_stays, List.filterMap_nil]
    split <;> rfl
  | drops front cell back _ _ ih =>
    have hfewer := hnodup.sublist (((List.sublist_cons_self cell back).append_left front).map _)
    rw [ih hfewer, Visit.filterMap_settle_cons hnodup, List.filterMap_append,
      List.filterMap_cons_none Visit.settle_cons_leaves]
    rfl

end Operation

namespace Snapshot

variable {comparator : Comparator σ K} {snapshot : Snapshot σ K V} {path : Path (Cell K V)}

/-- Recording the calls changes nothing else. -/
theorem retain_recording (comparator : Comparator σ K) (keep : K → V → StateM τ (Bool × V))
    (htree : Tree.nil.under path = snapshot.layout.tree) (state : τ × List (Call K V)) :
    snapshot.retain comparator keep path state.1 =
      ((snapshot.retain comparator (recording keep) path state).1.1,
        (snapshot.retain comparator (recording keep) path state).2) := by
  refine retain_induction comparator (recording keep)
    (motive := fun path snapshot state result =>
      snapshot.retain comparator keep path state.1 = (result.1.1, result.2)) ?_ ?_ ?_ htree state
  · intro path snapshot state hclimb
    exact retain_of_none comparator keep snapshot hclimb
  · intro path snapshot state below frame up value state' result _ hclimb hkeep passed hrest
    rw [retain_of_some comparator keep snapshot hclimb (of_recording_eq hkeep).1]
    exact hrest
  · intro path snapshot state below frame up value state' removed place after result _ hclimb hkeep
      cell visited hcut hrest
    rw [retain_of_some comparator keep snapshot hclimb (of_recording_eq hkeep).1]
    simp only [visited, cell] at hcut
    simp only [hcut]
    exact hrest

/-- A filter makes a call for each entry to come, and after a removal at most as many as
there are entries left. -/
theorem calls_retain_le (comparator : Comparator σ K) (keep : K → V → StateM τ (Bool × V))
    (htree : Tree.nil.under path = snapshot.layout.tree) (state : τ × List (Call K V)) :
    2 * (snapshot.retain comparator (recording keep) path state).1.2.length +
        (Tree.nil.under path).size ≤
      2 * (state.2.length + (Path.after path).length) +
        (Tree.nil.under path).size * (Tree.nil.under path).size := by
  refine retain_induction comparator (recording keep)
    (motive := fun path _ state result =>
      2 * result.1.2.length + (Tree.nil.under path).size ≤
        2 * (state.2.length + (Path.after path).length) +
          (Tree.nil.under path).size * (Tree.nil.under path).size) ?_ ?_ ?_ htree state
  · intro path snapshot state _
    have hsquare := Nat.le_mul_self (Tree.nil.under path).size
    simp only
    omega
  · intro path snapshot state below frame up value state' result _ hclimb hkeep passed hrest
    have hcalls : state'.2.length = state.2.length + 1 := by
      rw [(of_recording_eq hkeep).2, List.length_append, List.length_singleton]
    have hahead : (Path.after path).length = (Path.after passed).length + 1 := by
      rw [Path.after_eq_cons_of_climb (frame.entry.withValue value) hclimb, List.length_cons]
    have hsize : (Tree.nil.under passed).size = (Tree.nil.under path).size :=
      Path.size_pass hclimb _
    rw [hcalls, hsize] at hrest
    rw [hahead]
    omega
  · intro path snapshot state below frame up value state' removed place after result _ hclimb hkeep
      cell visited hcut hrest
    have hcalls : state'.2.length = state.2.length + 1 := by
      rw [(of_recording_eq hkeep).2, List.length_append, List.length_singleton]
    have hahead := congrArg List.length (Path.after_eq_cons_of_climb cell hclimb)
    -- all entries that are left may come again
    have hplace := Path.length_after_le place
    have hsize : (Tree.nil.under place).size + 1 = (Tree.nil.under path).size :=
      (size_of_cut hcut).trans
        ((congrArg Tree.size (Tree.nil_under_spine ..).symm).trans (Path.size_pass hclimb cell))
    rw [List.length_cons] at hahead
    rw [hcalls] at hrest
    rw [hahead, ← hsize, Nat.add_one_mul_add_one]
    omega

/-- A filter is a number of visits, which is bounded by that of the entries. -/
theorem exists_visits_retain (comparator : Comparator σ K) (keep : K → V → StateM τ (Bool × V))
    (snapshot : Snapshot σ K V) (state : τ) :
    ∃ final after visits,
      snapshot.retain comparator keep (snapshot.layout.tree.spine .left []) state =
        (final, after) ∧
      snapshot.retain comparator (recording keep) (snapshot.layout.tree.spine .left [])
        (state, []) = ((final, visits.map Visit.call), after) ∧
      visits.length ≤ snapshot.layout.tree.size * (snapshot.layout.tree.size + 1) / 2 ∧
      Operation.Visits keep state snapshot.cells visits final after.cells := by
  have htree := Tree.nil_under_spine .left snapshot.layout.tree []
  have hahead := Tree.after_spine_left snapshot.layout.tree []
  have hplain := retain_recording comparator keep htree (state, [])
  have hbound := calls_retain_le comparator keep htree (state, [])
  obtain ⟨_, -, hsifts⟩ := sifts_retain comparator (recording keep) htree (state, [])
  obtain ⟨visits, hcalls, hvisits⟩ := hsifts.exists_visits
  rcases hrecord : snapshot.retain comparator (recording keep)
    (snapshot.layout.tree.spine .left []) (state, []) with ⟨⟨final, calls⟩, after⟩
  rw [hrecord] at hplain hcalls hvisits hbound
  obtain rfl : calls = visits.map Visit.call := hcalls
  refine ⟨final, after, visits, hplain, rfl, ?_, hvisits⟩
  -- every entry lies after the start
  rw [htree, hahead, Tree.under_nil, Path.after, List.append_nil, Tree.length_toList,
    List.length_map, List.length_nil] at hbound
  rw [Nat.le_div_iff_mul_le Nat.two_pos, Nat.mul_add]
  omega

end Snapshot

/-! ## Reachable trees -/

/-- A cursor yields `suffix` and no more, and may remove `held`. -/
structure Cursor.Offers (comparator : Comparator σ K) (cursor : Cursor) (context : Context σ K V)
    (suffix : List (K × V)) (held : Option (K × V)) : Prop where
  /-- Moving on yields the suffix, and then nothing. -/
  yields : ∀ count, ∃ final, Cursor.moves comparator (List.replicate count .next) cursor context =
    .ok ((List.range count).map fun i => .yielded suffix[i]?, final) context
  /-- There is an entry to yield exactly if the suffix has one. -/
  hasNext_iff : cursor.hasNext = true ↔ suffix ≠ []
  /-- What is held is removed; without it, removing is refused. -/
  removes : ∃ resumed new, cursor.remove comparator context =
    .ok (held.elim (.error .invalidCursorState) .ok, resumed) new

/-- What a filter does, with its visits to the entries: it ends in the state `final`. -/
structure Engine.Filters (comparator : Comparator σ K) (keep : K → V → StateM τ (Bool × V))
    (state : τ) (context : Context σ K V) (visits : List (Visit K V)) (final : τ)
    (after : Context σ K V) : Prop where
  /-- The filter ends. -/
  ends : retain comparator keep state context = .ok final after
  /-- Each visit is a call of `keep`, and there are no others. -/
  calls : retain comparator (recording keep) (state, []) context =
    .ok (final, visits.map Visit.call) after
  /-- If there are `n` entries, there are at most half of `n * (n + 1)` calls. -/
  length_le : visits.length ≤ context.tree.size * (context.tree.size + 1) / 2
  /-- An entry is gone from the call on that answers that it does not stay. Every other entry is
  still there, with the value that was left in it last. -/
  settles : ∃ cells cells',
    context.tree.Lists cells ∧
    after.tree.Lists cells' ∧
    Operation.Visits keep state cells visits final cells' ∧
    cells' = cells.filterMap (Visit.settle visits)

namespace Engine

variable {context : Context σ K V} {layout : Layout K V}

/-- A cursor at a place of the tree yields the entries after it. -/
theorem Performs.offers (comparator : Comparator σ K) {snapshot : Snapshot σ K V}
    {place : Place K V} (htree : Tree.nil.under place.path = snapshot.layout.tree)
    {tree : LinkedTree K V} (hlaid : tree.LaidOut snapshot.layout) :
    place.cursor.Offers comparator (snapshot.around tree)
      ((Path.after place.path).map Cell.entry) place.held where
  yields count := by
    obtain ⟨_, hyield, -⟩ := moves_next comparator htree count
    exact ⟨_, hyield.unchanged hlaid⟩
  hasNext_iff := by
    rw [hasNext_cursor, Bool.not_eq_true', List.isEmpty_eq_false_iff]
    exact not_congr List.map_eq_nil_iff.symm
  removes := by
    obtain ⟨_, hremove, -⟩ := removeAt comparator htree tree hlaid
    rw [Snapshot.fst_removeAt] at hremove
    exact ⟨_, _, hremove⟩

/-- A filter on a tree in order ends, and what it has done is said by its visits. -/
theorem filters_of_laidOut (h : context.tree.LaidOut layout) (comparator : Comparator σ K)
    (keep : K → V → StateM τ (Bool × V)) (state : τ) :
    ∃ visits final after, Filters comparator keep state context visits final after := by
  obtain ⟨final, after, visits, hplain, hrecord, hbound, hvisits⟩ :=
    Snapshot.exists_visits_retain comparator keep (context.snapshot layout) state
  obtain ⟨tree, hretain, hafter⟩ :=
    (Performs.retain comparator keep state (context.snapshot layout)).of_context h
  obtain ⟨tree', hretain', hafter'⟩ :=
    (Performs.retain comparator (recording keep) (state, []) (context.snapshot layout)).of_context h
  rw [hplain] at hretain hafter
  rw [hrecord] at hretain' hafter'
  -- both lead to the same layout
  cases hafter.unique hafter'
  have hnodup : (context.snapshot layout).layout.tree.slots.Nodup := h.depicts.nodup
  refine ⟨visits, final, after.around tree, hretain, hretain', ?_, ?_⟩
  · rw [h.size]
    exact hbound
  · exact ⟨_, _, h.lists, hafter.lists, hvisits, hvisits.eq_filterMap hnodup⟩

/-- On every reachable tree, whatever the comparator answers, a cursor still yields a suffix of
the entries and no more, says that there is an entry to yield exactly if this suffix is not
empty, and removes the entry that it yielded last. A filter ends after at most half of
`n * (n + 1)` calls, if there are `n` entries; gone are exactly the entries about which a call
answered that they do not stay, from that call on, and every other entry has the value that was
left in it last. -/
theorem traversal_without_order (h : context.tree.Reachable) (comparator : Comparator σ K) :
    (∀ moves : List (Cursor.Move V), ∃ outcomes cursor after entries suffix,
      (Cursor.start >>= Cursor.moves comparator moves) context = .ok (outcomes, cursor) after ∧
      after.tree.entries = .ok entries ∧
      suffix <:+ entries ∧
      cursor.Offers comparator after suffix (Cursor.held none moves outcomes)) ∧
    ∀ (τ : Type) (keep : K → V → StateM τ (Bool × V)) (state : τ),
      ∃ visits final after, Filters comparator keep state context visits final after := by
  obtain ⟨layout, hlaid⟩ := h.exists_laidOut
  refine ⟨fun moves => ?_, fun _ => filters_of_laidOut hlaid comparator⟩
  let start : Snapshot σ K V := context.snapshot layout
  obtain ⟨tree, hrun, hafter⟩ := (Performs.traverse comparator moves start).of_context hlaid
  have hplace := Snapshot.nil_under_moves comparator (Place.nil_under_start start.layout.tree) moves
  have hheld := Snapshot.held_moves comparator start (.start layout.tree) moves
  have hoffers := Performs.offers comparator hplace hafter
  refine ⟨_, _, _, _, _, hrun, LinkedTree.entries_eq_ok hafter, ?_, hheld ▸ hoffers⟩
  rw [← hplace, Tree.toList_under, Tree.toList, List.append_nil, List.map_append]
  exact List.suffix_append _ _

/-- Entries that are in no order, since the comparator has changed its mind. After a removal, a
cursor yields an entry for the second time; a filter does so too, and leaves in it what both calls
have added. -/
theorem traversal_without_order_flipping :
    ∃ context : Context Nat Nat Nat,
      context.tree.Reachable ∧
      context.tree.entries = .ok [(5, 50), (1, 10), (2, 20), (3, 30)] ∧
      (∃ cursor after,
        (Cursor.start >>= Cursor.moves (Comparator.flipping 3 compare)
          [.next, .next, .next, .remove]) context =
            .ok ([.yielded (some (5, 50)), .yielded (some (1, 10)), .yielded (some (2, 20)),
              .removed (.ok (2, 20))], cursor) after ∧
        after.tree.entries = .ok [(5, 50), (1, 10), (3, 30)] ∧
        cursor.Offers (Comparator.flipping 3 compare) after [(1, 10), (3, 30)] none) ∧
      ∃ visits after,
        Filters (Comparator.flipping 3 compare)
          (fun key value calls => ((key != 2, value + calls), calls + 1)) 0 context visits 5 after ∧
        visits.map Visit.call = [⟨(5, 50), true, 50⟩, ⟨(1, 10), true, 11⟩, ⟨(2, 20), false, 22⟩,
          ⟨(1, 11), true, 14⟩, ⟨(3, 30), true, 34⟩] ∧
        after.tree.entries = .ok [(5, 50), (1, 14), (3, 34)] := by
  obtain ⟨_, context, hrun, hreachable, -⟩ :=
    exists_reachable_run (rfl : Arena.withCapacity ⟨8, 24⟩ 0 = .ok (Arena.empty ⟨8, 24⟩))
      (Comparator.flipping 3 compare) 0
      [.insert 1 10 .overwrite, .insert 2 20 .reject, .insert 3 30 .overwrite,
        .insert 2 40 .reject, (.insert 5 50 .overwrite : Operation Unit Nat Nat)]
  obtain ⟨hcursor, hfilter⟩ :=
    traversal_without_order hreachable (Comparator.flipping 3 compare)
  have hentries := holds_of_ok hrun
    (fun _ context => context.tree.entries = .ok [(5, 50), (1, 10), (2, 20), (3, 30)])
    (by decide +kernel)
  refine ⟨context, hreachable, hentries, ?_, ?_⟩
  · obtain ⟨outcomes, cursor, after, entries, suffix, hmoves, hafter, hsuffix, hoffers⟩ :=
      hcursor [.next, .next, .next, .remove]
    -- what the cursor answers, what is left, and what it yields next are computed
    have houtcomes := holds_after hrun hmoves
      (fun _ answer _ => answer.1 = [.yielded (some (5, 50)), .yielded (some (1, 10)),
        .yielded (some (2, 20)), .removed (.ok (2, 20))])
      (by decide +kernel)
    have hleft := holds_after hrun hmoves
      (fun _ _ after => after.tree.entries = .ok [(5, 50), (1, 10), (3, 30)]) (by decide +kernel)
    have hnext := holds_after hrun hmoves
      (fun _ answer after => Ends (Cursor.moves (Comparator.flipping 3 compare) [.next] answer.2)
        after fun answer _ => answer.1 = [.yielded (some (1, 10))])
      (by decide +kernel)
    obtain rfl : outcomes = _ := houtcomes
    cases hafter.symm.trans hleft
    obtain ⟨_, hyields⟩ := hoffers.yields 1
    have hfirst := holds_of_ok hyields _ hnext
    -- of the suffixes of what is left, one begins with the entry that is yielded next
    simp only [List.suffix_cons_iff, List.suffix_nil] at hsuffix
    obtain rfl : suffix = [(1, 10), (3, 30)] := by
      rcases hsuffix with rfl | rfl | rfl | rfl
      · cases hfirst
      · rfl
      · cases hfirst
      · cases hfirst
    exact ⟨cursor, after, hmoves, hafter, hoffers⟩
  · obtain ⟨visits, final, after, hfilters⟩ := hfilter Nat
      (fun key value calls => ((key != 2, value + calls), calls + 1)) 0
    have hcalls := holds_after hrun hfilters.calls
      (fun _ answer _ => answer = (5, [⟨(5, 50), true, 50⟩, ⟨(1, 10), true, 11⟩,
        ⟨(2, 20), false, 22⟩, ⟨(1, 11), true, 14⟩, ⟨(3, 30), true, 34⟩]))
      (by decide +kernel)
    have hleft := holds_after hrun hfilters.ends
      (fun _ _ after => after.tree.entries = .ok [(5, 50), (1, 14), (3, 34)]) (by decide +kernel)
    obtain ⟨rfl, hvisits⟩ := Prod.ext_iff.1 hcalls
    exact ⟨visits, after, hfilters, hvisits, hleft⟩

end Engine

end RedBlack
