import RedBlack.Proofs.Engine.Filtering
import RedBlack.Proofs.SortedList.Basic

/-!
# Keys That a Traversal Removes

A traversal of a sorted list goes forward only, so it removes keys in their order
(`Traversal.removedKeys_sublist`). Which keys it removes has nothing to do with the values that are
stored or put in (`Traversal.removedKeys_plain`): without the values, both go through the same list
of keys.
-/

namespace RedBlack

variable {K V : Type}

/-- The answer, without values. -/
def Cursor.Outcome.bare : Cursor.Outcome K V → Cursor.Outcome K Unit
  | yielded entry => yielded (entry.map fun entry => (entry.1, ()))
  | flag answer => flag answer
  | removed entry => removed (entry.map fun entry => (entry.1, ()))

/-- The keys of the removed entries can be seen without values. -/
theorem Cursor.Outcome.removal_bare (outcome : Cursor.Outcome K V) :
    outcome.bare.removal.map Prod.fst = outcome.removal.map Prod.fst := by
  rcases outcome with _ | _ | (_ | _)
  all_goals rfl

namespace SortedList.Traversal

/-- The traversal without values. -/
def bare (traversal : Traversal K V) : Traversal K Unit :=
  { passed := traversal.passed.map fun entry => (entry.1, ())
    ahead := traversal.ahead.map fun entry => (entry.1, ())
    removable := traversal.removable }

theorem yield_bare (traversal : Traversal K V) (change : V → V) :
    traversal.bare.yield id =
      ((traversal.yield change).1.map fun entry => (entry.1, ()),
        (traversal.yield change).2.bare) := by
  obtain ⟨passed, _ | ⟨entry, ahead⟩, removable⟩ := traversal
  · rfl
  · simp [yield, bare]

theorem remove_bare (traversal : Traversal K V) :
    traversal.bare.remove =
      (traversal.remove.1.map fun entry => (entry.1, ()), traversal.remove.2.bare) := by
  obtain ⟨passed, ahead, removable⟩ := traversal
  cases removable with
  | false => simp [remove, bare, Except.map]
  | true =>
    cases hlast : passed.getLast? with
    | none => simp [remove, bare, hlast, Except.map]
    | some entry => simp [remove, bare, hlast, Except.map]

/-- What a traversal does to the keys does not depend on the values. -/
theorem move_bare (traversal : Traversal K V) (move : Cursor.Move V) :
    traversal.bare.move move.bare =
      ((traversal.move move).1.bare, (traversal.move move).2.bare) := by
  cases move with
  | next =>
    simp only [Traversal.move, Cursor.Move.bare, traversal.yield_bare id]
    rfl
  | replace value =>
    simp only [Traversal.move, Cursor.Move.bare, traversal.yield_bare fun _ => value]
    rfl
  | hasNext =>
    simp only [Traversal.move, Cursor.Move.bare, bare, List.isEmpty_map]
    rfl
  | remove =>
    simp only [Traversal.move, Cursor.Move.bare, traversal.remove_bare]
    rfl

theorem moves_bare (traversal : Traversal K V) (moves : List (Cursor.Move V)) :
    traversal.bare.moves (moves.map Cursor.Move.bare) =
      ((traversal.moves moves).1.map Cursor.Outcome.bare, (traversal.moves moves).2.bare) := by
  induction moves generalizing traversal with
  | nil => rfl
  | cons move moves ih =>
    simp only [List.map_cons, Traversal.moves, traversal.move_bare move, ih]

/-- The keys of the removed entries can be seen without values. -/
theorem removedKeys_bare (outcomes : List (Cursor.Outcome K V)) :
    ((outcomes.map Cursor.Outcome.bare).filterMap Cursor.Outcome.removal).map Prod.fst =
      (outcomes.filterMap Cursor.Outcome.removal).map Prod.fst := by
  rw [List.map_filterMap, List.map_filterMap, List.filterMap_map]
  exact congrArg (List.filterMap · outcomes) (funext Cursor.Outcome.removal_bare)

/-- Values that a traversal puts in make no difference to the keys that it removes. -/
theorem removedKeys_plain (traversal : Traversal K V) (moves : List (Cursor.Move V)) :
    ((traversal.moves (moves.map Cursor.Move.plain)).1.filterMap Cursor.Outcome.removal).map
        Prod.fst =
      ((traversal.moves moves).1.filterMap Cursor.Outcome.removal).map Prod.fst := by
  have hbare : (moves.map Cursor.Move.plain).map Cursor.Move.bare = moves.map Cursor.Move.bare := by
    rw [List.map_map]
    exact List.map_congr_left fun move _ => move.bare_plain
  have hplain := traversal.moves_bare (moves.map Cursor.Move.plain)
  rw [hbare, traversal.moves_bare moves] at hplain
  obtain ⟨houtcomes, -⟩ := Prod.mk.inj hplain
  rw [← removedKeys_bare (traversal.moves moves).1, houtcomes, removedKeys_bare]

/-- The entry that may be removed. -/
def held (traversal : Traversal K V) : Option (K × V) :=
  if traversal.removable then traversal.passed.getLast? else none

/-- Yielding an entry leaves no other keys to remove than before. -/
theorem keys_yield_sublist (traversal : Traversal K V) (change : V → V) :
    (((traversal.yield change).2.held.toList ++ (traversal.yield change).2.ahead).map
      Prod.fst).Sublist ((traversal.held.toList ++ traversal.ahead).map Prod.fst) := by
  obtain ⟨passed, _ | ⟨entry, ahead⟩, removable⟩ := traversal
  · exact .refl _
  · simp [yield, held]

/-- A traversal removes keys of the entry yielded last and of the entries to come, in their
order. -/
theorem removedKeys_sublist (traversal : Traversal K V) (moves : List (Cursor.Move V)) :
    (((traversal.moves moves).1.filterMap Cursor.Outcome.removal).map Prod.fst).Sublist
      ((traversal.held.toList ++ traversal.ahead).map Prod.fst) := by
  induction moves generalizing traversal with
  | nil => exact List.nil_sublist _
  | cons move moves ih =>
    cases move with
    | next => exact (ih _).trans (traversal.keys_yield_sublist id)
    | replace value => exact (ih _).trans (traversal.keys_yield_sublist fun _ => value)
    | hasNext => exact ih traversal
    | remove =>
      obtain ⟨passed, ahead, removable⟩ := traversal
      simp only [Traversal.moves, Traversal.move, Traversal.remove]
      cases removable with
      | false => exact ih ⟨passed, ahead, false⟩
      | true =>
        cases hlast : passed.getLast? with
        | none => exact ih ⟨passed, ahead, true⟩
        | some entry =>
          have hrest := ih ⟨passed.dropLast, ahead, false⟩
          simp only [held, hlast, if_pos]
          exact hrest.cons_cons entry.1

end SortedList.Traversal

end RedBlack
