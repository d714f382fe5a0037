import RedBlack.Linked.Navigation

/-!
# Iterators

In-order iteration over the entries of a tree that is not changed meanwhile. An iterator
keeps the nodes that it has passed on the way down but not yielded yet, lowest first, and
the number of entries to come.
-/

namespace RedBlack

/-- An in-order iterator. -/
structure Iterator (K V : Type) where
  /-- The storage of the iterated tree. -/
  arena : Arena K V
  /-- The nodes to yield before their right subtrees, the next one first. -/
  pending : List SlotId
  /-- The number of entries still to yield. -/
  remaining : Nat

namespace Iterator

variable {K V : Type}

/-- An iterator before the first entry of a tree. -/
def ofTree (tree : LinkedTree K V) : Except Fault (Iterator K V) := do
  return {
    arena := tree.arena
    pending := ← tree.arena.leftChain tree.root []
    remaining := tree.size }

/-- The next entry, if there is one, and the iterator after it. -/
def next (iterator : Iterator K V) : Except Fault (Option (K × V) × Iterator K V) :=
  match iterator.pending with
  | [] => .ok (none, iterator)
  | id :: rest => do
    let node ← iterator.arena.get id
    let pending ← iterator.arena.leftChain node.right rest
    match iterator.remaining with
    | 0 => throw .underflow
    | remaining + 1 => return (some node.entry, { iterator with pending, remaining })

/-- Skip entries and give the one after them, if there is one. -/
def nth : Nat → Iterator K V → Except Fault (Option (K × V) × Iterator K V)
  | 0, iterator => iterator.next
  | skipped + 1, iterator => do
    match ← iterator.next with
    | (none, iterator) => return (none, iterator)
    | (some _, iterator) => nth skipped iterator

/-- The number of entries still to yield, as a lower and an upper bound. -/
def sizeHint (iterator : Iterator K V) : Nat × Nat :=
  (iterator.remaining, iterator.remaining)

/-- All entries still to yield, in the given number of steps, and the iterator after them. -/
def collectWithin : Nat → Iterator K V → Except Fault (List (K × V) × Iterator K V)
  | 0, _ => throw .endless
  | steps + 1, iterator => do
    match ← iterator.next with
    | (none, iterator) => return ([], iterator)
    | (some entry, iterator) =>
      let (entries, iterator) ← collectWithin steps iterator
      return (entry :: entries, iterator)

/-- All entries still to yield, and the iterator after them. -/
def collect (iterator : Iterator K V) : Except Fault (List (K × V) × Iterator K V) :=
  collectWithin iterator.arena.budget iterator

end Iterator

/-- The entries of a tree in order. -/
def LinkedTree.entries {K V : Type} (tree : LinkedTree K V) : Except Fault (List (K × V)) := do
  return (← (← Iterator.ofTree tree).collect).1

end RedBlack
