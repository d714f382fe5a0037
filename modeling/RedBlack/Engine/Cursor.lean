import RedBlack.Engine.Access
import RedBlack.Linked.Iterator

/-!
# Cursors

In-order traversal that can remove the entry it has just yielded, and the filter built on
it. A removal may rotate any part of the tree, so the cursor then drops its list of pending
nodes and descends from the root towards the removed key, keeping each node at which it
turns left. The lowest of these is the successor of the removed key, where traversal goes
on.
-/

namespace RedBlack

/-- A traversal of a tree. -/
structure Cursor where
  /-- The nodes to yield before their right subtrees, the next one first. -/
  pending : List SlotId
  /-- The node yielded last, unless it was removed. -/
  yielded : Link

namespace Cursor

open Engine (onTree ask eraseNode report release)
open LinkedTree (node)

variable {σ K V : Type}

/-- A cursor before the first entry. -/
def start : EngineM σ K V Cursor := do
  let pending ← Engine.inspect fun tree => tree.arena.leftChain tree.root []
  return { pending, yielded := none }

/-- Whether there is an entry to yield. -/
def hasNext (cursor : Cursor) : Bool :=
  !cursor.pending.isEmpty

/-- Move to the next node, if there is one, and remember it for `remove`. -/
def step (cursor : Cursor) : EngineM σ K V (Link × Cursor) :=
  match cursor.pending with
  | [] => return (none, cursor)
  | id :: rest => do
    let { right, .. } ← onTree (node id)
    let pending ← Engine.inspect fun tree => tree.arena.leftChain right rest
    return (some id, { pending, yielded := some id })

/-- Yield the next entry, if there is one. -/
def next (cursor : Cursor) : EngineM σ K V (Option (K × V) × Cursor) := do
  match ← cursor.step with
  | (none, cursor) => return (none, cursor)
  | (some id, cursor) => return (some (← onTree (node id)).entry, cursor)

/-- Yield the next entry, if there is one, and put another value in its place. -/
def nextReplacing (cursor : Cursor) (value : V) : EngineM σ K V (Option (K × V) × Cursor) := do
  match ← cursor.step with
  | (none, cursor) => return (none, cursor)
  | (some id, cursor) =>
    let { key, .. } ← onTree (node id)
    return (some (key, ← onTree (LinkedTree.replaceValue id value)), cursor)

/-- The nodes at which the descent from `link` towards a key turns left, lowest first, in
the given number of steps. The descent turns right at an equal key. -/
def turnsWithin (comparator : Comparator σ K) (key : K) :
    Nat → Link → List SlotId → EngineM σ K V (List SlotId)
  | _, none, turns => return turns
  | 0, some _, _ => throw .endless
  | steps + 1, some id, turns => do
    let { key := stored, left, right, .. } ← onTree (node id)
    match ← ask comparator key stored with
    | .lt => turnsWithin comparator key steps left (id :: turns)
    | .eq | .gt => turnsWithin comparator key steps right turns

/-- The cursor that goes on after a key that is no longer stored. -/
def resume (comparator : Comparator σ K) (removed : K) : EngineM σ K V Cursor := do
  let budget ← onTree LinkedTree.budget
  let root ← onTree LinkedTree.getRoot
  let pending ← turnsWithin comparator removed budget root []
  report [.resynchronized pending.length]
  return { pending, yielded := none }

/-- Remove the entry yielded last. -/
def remove (comparator : Comparator σ K) (cursor : Cursor) :
    EngineM σ K V (Except Error (K × V) × Cursor) :=
  match cursor.yielded with
  | none => return (.error .invalidCursorState, cursor)
  | some id => do
    let entry ← eraseNode id
    return (.ok entry, ← resume comparator entry.1)

end Cursor

namespace Engine

variable {σ τ K V : Type}

/-- Visit the entries that a cursor still yields, in the given number of steps. `keep` sees
each key and value, answers whether the entry stays, leaves a value in its place, and may
keep a state of its own. -/
def retainWithin (comparator : Comparator σ K) (keep : K → V → StateM τ (Bool × V)) :
    Nat → Cursor → τ → EngineM σ K V τ
  | 0, _, _ => throw .endless
  | steps + 1, cursor, state => do
    match ← cursor.step with
    | (none, _) => return state
    | (some id, cursor) =>
      let { key, value, .. } ← onTree (LinkedTree.node id)
      let ((stays, value), state) := keep key value state
      onTree (LinkedTree.modifyNode id fun node => node.withValue value)
      if stays then
        retainWithin comparator keep steps cursor state
      else
        match ← cursor.remove comparator with
        | (.error _, cursor) => retainWithin comparator keep steps cursor state
        | (.ok (_, value), cursor) =>
          release [value]
          retainWithin comparator keep steps cursor state

/-- Keep the entries for which `keep` answers `true`, visiting them in order. The removed
values are released. Gives the final state of `keep`. -/
def retain (comparator : Comparator σ K) (keep : K → V → StateM τ (Bool × V)) (state : τ) :
    EngineM σ K V τ := do
  let budget ← onTree LinkedTree.budget
  retainWithin comparator keep (budget * budget) (← Cursor.start) state

end Engine

end RedBlack
