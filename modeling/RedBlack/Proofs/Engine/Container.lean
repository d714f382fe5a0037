import RedBlack.Container
import RedBlack.Proofs.Engine.Operation

/-!
# Operations of Maps and Sets

The operations of a map and those of a set, as data: the few that only one of them knows, and
those of the engine, which both share. All of them are followed on snapshots
(`Performs.mapOperation`, `Performs.setOperation`).
-/

namespace RedBlack

variable {σ τ K V : Type}

/-- An operation on a map. -/
inductive OrderedMap.Operation (τ K V : Type) where
  /-- Store a value under a key. -/
  | insert (key : K) (value : V)
  /-- Remove an entry and give its value. -/
  | remove (key : K)
  /-- Remove an entry and give it. -/
  | removeEntry (key : K)
  /-- An operation that sets have too. -/
  | shared (operation : RedBlack.Operation τ K V)

/-- An operation on a set. -/
inductive OrderedSet.Operation (τ K : Type) where
  /-- Add a key. -/
  | insert (key : K)
  /-- Remove a key. -/
  | remove (key : K)
  /-- Remove a key and give the stored one. -/
  | take (key : K)
  /-- An operation that maps have too. -/
  | shared (operation : RedBlack.Operation τ K Unit)

/-- Perform an operation on a map. -/
def OrderedMap.Operation.perform (comparator : Comparator σ K) :
    OrderedMap.Operation τ K V → EngineM σ K V (Answer τ K V)
  | insert key value => return .stored (← OrderedMap.insert comparator key value)
  | remove key => return .value (← OrderedMap.remove comparator key)
  | removeEntry key => return .entry (← OrderedMap.removeEntry comparator key)
  | shared operation => operation.perform comparator

/-- Perform an operation on a set. -/
def OrderedSet.Operation.perform (comparator : Comparator σ K) :
    OrderedSet.Operation τ K → EngineM σ K Unit (Answer τ K Unit)
  | insert key => return .outcome (← OrderedSet.insert comparator key)
  | remove key => return .outcome (← OrderedSet.remove comparator key)
  | take key => return .key (← OrderedSet.take comparator key)
  | shared operation => operation.perform comparator

/-- The operation on a map, in terms of snapshots. -/
def OrderedMap.Operation.follow (comparator : Comparator σ K)
    (operation : OrderedMap.Operation τ K V) (snapshot : Snapshot σ K V) :
    Answer τ K V × Snapshot σ K V :=
  match operation with
  | insert key value =>
    let (stored, after) := snapshot.insert comparator key value .overwrite
    (.stored stored, after)
  | remove key =>
    let (found, after) := snapshot.remove comparator key
    (.value (found.map Prod.snd), after)
  | removeEntry key =>
    let (found, after) := snapshot.remove comparator key
    (.entry found, after)
  | shared operation => snapshot.perform comparator operation

/-- The operation on a set, in terms of snapshots. -/
def OrderedSet.Operation.follow (comparator : Comparator σ K)
    (operation : OrderedSet.Operation τ K) (snapshot : Snapshot σ K Unit) :
    Answer τ K Unit × Snapshot σ K Unit :=
  match operation with
  | insert key =>
    let (stored, after) := snapshot.insert comparator key () .reject
    (.outcome (stored.map fun _ => ()), after)
  | remove key =>
    let (found, after) := snapshot.remove comparator key
    (.outcome (found.map fun _ => ()), after)
  | take key =>
    let (found, after) := snapshot.remove comparator key
    (.key (found.map Prod.fst), after)
  | shared operation => snapshot.perform comparator operation

namespace Engine.Performs

theorem mapOperation (comparator : Comparator σ K) (operation : OrderedMap.Operation τ K V)
    (before : Snapshot σ K V) :
    Performs (operation.perform comparator) before (operation.follow comparator before).2
      (operation.follow comparator before).1 := by
  cases operation with
  | insert key value => exact .map (insert comparator key value .overwrite before) _
  | remove key => exact .map (.map (remove comparator key before) _) _
  | removeEntry key => exact .map (remove comparator key before) _
  | shared operation => exact .operation comparator operation before

theorem setOperation (comparator : Comparator σ K) (operation : OrderedSet.Operation τ K)
    (before : Snapshot σ K Unit) :
    Performs (operation.perform comparator) before (operation.follow comparator before).2
      (operation.follow comparator before).1 := by
  cases operation with
  | insert key => exact .map (.map (insert comparator key () .reject before) _) _
  | remove key => exact .map (.map (remove comparator key before) _) _
  | take key => exact .map (.map (remove comparator key before) _) _
  | shared operation => exact .operation comparator operation before

end Engine.Performs

end RedBlack
