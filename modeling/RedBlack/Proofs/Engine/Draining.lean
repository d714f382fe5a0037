import RedBlack.Proofs.Engine.Filtering
import RedBlack.Session.Perform

/-!
# Drains as Cursor Runs

A drain yields all entries to come and removes those with a property. It is a run of the cursor up
to the end (`Engine.exists_drain`), so what holds of every cursor run holds of it. Whatever
the comparator answers, it ends: a removal leaves one node less, and every other visit leaves less
of the same tree to come.
-/

namespace RedBlack

open RedBlack.Tree (Frame Path)

variable {σ K V : Type}

/-- What a cursor does for one visit of a drain. -/
def Session.visitMoves (visit : K × Option (Except Error (K × V))) : List (Cursor.Move V) :=
  .next :: if visit.2.isSome then [.remove] else []

/-- The entry that a visit of a drain has removed, if it has removed one. -/
def Session.visitRemoval (visit : K × Option (Except Error (K × V))) : Option (K × V) :=
  visit.2.bind Except.toOption

/-- A drain puts no values in. -/
theorem Session.map_plain_visitMoves (visits : List (K × Option (Except Error (K × V)))) :
    (visits.flatMap visitMoves ++ [(.next : Cursor.Move V)]).map Cursor.Move.plain =
      visits.flatMap visitMoves ++ [.next] := by
  rw [List.map_append, List.map_flatMap]
  congr 2
  funext visit
  obtain ⟨key, _ | removed⟩ := visit
  all_goals rfl

namespace Engine

open Session (visitMoves visitRemoval)

variable [BEq K] [KeyKind K] [Contents V] {before : Snapshot σ K V}

namespace Performs

/-- A drain from a place on is the cursor run whose moves are those of its visits, up to the end. -/
theorem exists_drainWithin (comparator : Comparator σ K) (filter : Session.Filter K)
    {place : Place K V} {steps : Nat} (htree : Tree.nil.under place.path = before.layout.tree)
    (hsteps : Path.effort place.path < steps) (visited : Nat) :
    ∃ visits outcomes last after,
      Performs (Session.drainWithin comparator filter visited steps place.cursor) before after
        (visits, last.cursor) ∧
      before.moves comparator place (visits.flatMap visitMoves ++ [.next]) =
        (outcomes, last, after) ∧
      outcomes.filterMap Cursor.Outcome.removal = visits.filterMap visitRemoval := by
  obtain ⟨path, removable⟩ := place
  -- the steps that are left exceed what is to come, as for a filter
  induction steps generalizing before path removable visited with
  | zero => exact absurd hsteps (Nat.not_lt_zero _)
  | succ steps ih =>
    have hnext := next htree
    rcases hclimb : Path.climb .left path .nil with _ | ⟨below, frame, up⟩
    · rw [Place.next_of_none hclimb] at hnext
      refine ⟨[], [.yielded none], _, before, .bind hnext (.pure _ _), ?_, rfl⟩
      exact Snapshot.moves_cons_of_eq
        (Snapshot.move_next_of_none comparator before hclimb removable) rfl
    · let passed := Path.pass below frame frame.entry up
      have hplace : Place.next ⟨path, removable⟩ = (some frame.entry.entry, ⟨passed, true⟩) :=
        Place.next_of_climb hclimb
      have hmove : before.move comparator ⟨path, removable⟩ .next =
          (.yielded (some frame.entry.entry), ⟨passed, true⟩, before) := by
        rw [Snapshot.move, hplace]
      have hpassed : Tree.nil.under passed = before.layout.tree := by
        have hunder := Snapshot.nil_under_next (⟨path, removable⟩ : Place K V)
        rw [hplace] at hunder
        exact hunder.trans htree
      have hlt : Path.effort passed < steps :=
        Nat.lt_of_lt_of_le (Nat.le_of_eq (Path.effort_pass hclimb _)) (Nat.le_of_lt_succ hsteps)
      rw [hplace] at hnext
      -- either way the cursor has yielded the entry, and the visit begins with that
      cases hholds : filter.holds visited frame.entry.key frame.entry.value with
      | false =>
        obtain ⟨visits, outcomes, last, after, hdrain, hmoves, hremovals⟩ :=
          ih (visited + 1) passed true hpassed hlt
        refine ⟨(frame.entry.key, none) :: visits, _, last, after, .bind hnext ?_,
          Snapshot.moves_cons_of_eq hmove hmoves, hremovals⟩
        simp only [Cell.entry, hholds]
        exact .bind hdrain (.pure _ _)
      | true =>
        rcases hcut : before.cut comparator frame.sibling ⟨.right, frame.color, frame.entry, below⟩
          up with ⟨⟨removed, resumed⟩, mid⟩
        let place : Place K V := ⟨passed, true⟩
        have hremove : Performs (place.cursor.remove comparator) before _ _ :=
          removeAt comparator hpassed
        rw [Snapshot.removeAt_pass, hcut] at hremove
        -- the tree has lost a node, which pays for starting over
        obtain ⟨visits, outcomes, last, after, hdrain, hmoves, hremovals⟩ :=
          ih (visited + 1) resumed false (Snapshot.nil_under_of_cut hcut)
            (Nat.lt_trans (Snapshot.effort_lt_of_cut hcut) hlt)
        refine ⟨(frame.entry.key, some (.ok removed)) :: visits, _, last, after, .bind hnext ?_,
          Snapshot.moves_cons_of_eq hmove
            (Snapshot.moves_cons_of_eq (Snapshot.move_remove_of_cut hcut) hmoves), ?_⟩
        · simp only [Cell.entry, hholds]
          exact .bind hremove (.bind hdrain (.pure _ _))
        · exact congrArg (removed :: ·) hremovals

end Performs

/-- A drain by a new cursor. -/
theorem exists_drain (comparator : Comparator σ K) (filter : Session.Filter K)
    (before : Snapshot σ K V) {tree : LinkedTree K V} (hlaid : tree.LaidOut before.layout) :
    ∃ visits outcomes last after new,
      (Cursor.start >>= fun cursor => Session.cursorStep comparator cursor (.drain filter))
          (before.around tree) =
        .ok (.drained visits, (last : Place K V).cursor) (Snapshot.around after new) ∧
      new.LaidOut after.layout ∧
      before.moves comparator (.start before.layout.tree) (visits.flatMap visitMoves ++ [.next]) =
        (outcomes, last, after) ∧
      outcomes.filterMap Cursor.Outcome.removal = visits.filterMap visitRemoval := by
  have htree := Place.nil_under_start before.layout.tree
  have hsteps := Path.effort_spine_lt hlaid.size_lt_budget
  obtain ⟨visits, outcomes, last, after, hdrain, hmoves, hremovals⟩ :=
    Performs.exists_drainWithin comparator filter htree hsteps 0
  have hstart := (Performs.start before).unchanged hlaid
  have hbudget : (Engine.onTree LinkedTree.budget : EngineM σ K V Nat) (before.around tree) =
      .ok tree.arena.budget (before.around tree) := rfl
  obtain ⟨new, hends, hnew⟩ :=
    hdrain.map (fun answer => (Session.Reply.drained answer.1, answer.2)) tree hlaid
  refine ⟨visits, outcomes, last, after, new, ?_, hnew, hmoves, hremovals⟩
  exact (bind_of_ok hstart).trans ((bind_of_ok hbudget).trans hends)

end Engine

end RedBlack
