import RedBlack.Engine.Basic
import RedBlack.Linked.Insertion
import RedBlack.Linked.Removal
import RedBlack.Linked.Teardown

/-!
# Access by Key and by Position

Looking up, storing and removing entries. A key is only ever compared with the keys on one
path down from the root, always as the first argument, and the descent stops at the first
equal one.
-/

namespace RedBlack

/-- What to do with an entry whose key is stored already. -/
inductive DuplicatePolicy where
  /-- Replace the stored value and keep the stored key. -/
  | overwrite
  /-- Refuse the entry. -/
  | reject
deriving DecidableEq

namespace Engine

open LinkedTree (node)

variable {σ K V : Type}

/-! ## Descent -/

/-- Where the descent for a key ends. -/
inductive Landing where
  /-- At a node whose key is equal to it. -/
  | found (id : SlotId)
  /-- In the empty place on one side of a node, or at the root of an empty tree. -/
  | gap (parent : Link) (side : Side)
deriving DecidableEq

/-- Descend from `link`, which hangs from one side of `parent`, towards a key in the given
number of steps. -/
def descendWithin (comparator : Comparator σ K) (key : K) :
    Nat → (parent : Link) → Side → (link : Link) → EngineM σ K V Landing
  | _, parent, side, none => return .gap parent side
  | 0, _, _, some _ => throw .endless
  | steps + 1, _, _, some id => do
    let { key := stored, left, right, .. } ← onTree (node id)
    match ← ask comparator key stored with
    | .lt => descendWithin comparator key steps (some id) .left left
    | .gt => descendWithin comparator key steps (some id) .right right
    | .eq => return .found id

/-- Descend from the root towards a key: to the left where the key is less than the stored
one, to the right where it is greater. -/
def descend (comparator : Comparator σ K) (key : K) : EngineM σ K V Landing := do
  let budget ← onTree LinkedTree.budget
  let root ← onTree LinkedTree.getRoot
  descendWithin comparator key budget none .left root

/-- The node whose key is equal to a key, if there is one. -/
def locate (comparator : Comparator σ K) (key : K) : EngineM σ K V Link := do
  match ← descend comparator key with
  | .found id => return some id
  | .gap _ _ => return none

/-! ## Looking up -/

/-- Whether a key is stored. -/
def contains (comparator : Comparator σ K) (key : K) : EngineM σ K V Bool := do
  return (← locate comparator key).isSome

/-- The value stored under a key. -/
def get (comparator : Comparator σ K) (key : K) : EngineM σ K V (Except Error V) := do
  match ← locate comparator key with
  | none => return .error .keyNotFound
  | some id => return .ok (← onTree (node id)).value

/-- Change the value stored under a key. Gives the new value. -/
def update (comparator : Comparator σ K) (key : K) (change : V → V) :
    EngineM σ K V (Except Error V) := do
  match ← locate comparator key with
  | none => return .error .keyNotFound
  | some id =>
    onTree (LinkedTree.modifyNode id fun node => node.withValue (change node.value))
    return .ok (← onTree (node id)).value

/-- The outermost entry on one side. -/
def outermost (side : Side) : EngineM σ K V (Except Error (K × V)) := do
  match ← inspect fun tree => tree.outermostEntry? side with
  | none => return .error .emptyContainer
  | some entry => return .ok entry

/-! ## Storing and removing -/

/-- Store an entry. Gives the value it replaced, if its key was stored already. A refused
value is released. -/
def insert (comparator : Comparator σ K) (key : K) (value : V) (policy : DuplicatePolicy) :
    EngineM σ K V (Except Error (Option V)) := do
  match ← descend comparator key, policy with
  | .found id, .overwrite =>
    return .ok (some (← onTree (LinkedTree.replaceValue id value)))
  | .found _, .reject =>
    release [value]
    return .error .keyAlreadyExists
  | .gap parent side, _ =>
    match ← onTreeReporting (LinkedTree.insertAt parent side key value) with
    | .ok () => return .ok none
    | .error _ =>
      release [value]
      return .error .allocationFailure

/-- Take a node out of the tree. Gives its entry. -/
def eraseNode (id : SlotId) : EngineM σ K V (K × V) :=
  onTreeReporting (LinkedTree.erase id)

/-- Remove the entry stored under a key. -/
def remove (comparator : Comparator σ K) (key : K) : EngineM σ K V (Except Error (K × V)) := do
  match ← locate comparator key with
  | none => return .error .keyNotFound
  | some id => return .ok (← eraseNode id)

/-- Remove the outermost entry on one side. -/
def pop (side : Side) : EngineM σ K V (Except Error (K × V)) := do
  match ← inspect fun tree => tree.outermost? side with
  | none => return .error .emptyContainer
  | some id => return .ok (← eraseNode id)

/-- Release every entry, children before their parents. -/
def clear : EngineM σ K V Unit := do
  release (← onTreeReporting LinkedTree.clear)

end Engine

end RedBlack
