import RedBlack.Linked.Basic

/-!
# Teardown

Releasing every node of a tree, children before their parents. The loop keeps a list of
visits still to make instead of descending into the tree, and reads the links of a node
before any slot of its subtree is vacated.
-/

namespace RedBlack

namespace LinkedTree

variable {K V : Type}

/-- A visit to a node. -/
inductive Visit where
  /-- On the way down: the subtrees of the node are released first. -/
  | enter (id : SlotId)
  /-- On the way up: the node itself is released. -/
  | leave (id : SlotId)
deriving DecidableEq

/-- The visit on the way down to the node at the end of a link, if there is one. -/
def Visit.into (link : Link) : List Visit :=
  (link.map enter).toList

/-- Make the given visits in the given number of steps. Gives the released values in
order. -/
def releaseWithin : Nat → List Visit → LinkM K V (List V)
  | _, [] => return []
  | 0, _ :: _ => throw .endless
  | steps + 1, .leave id :: visits => do
    let (_, value) ← onArena (Arena.free id)
    return value :: (← releaseWithin steps visits)
  | steps + 1, .enter id :: visits => do
    let { left, right, .. } ← node id
    releaseWithin steps (Visit.into left ++ Visit.into right ++ .leave id :: visits)

/-- Forget all slots; only the capacity of the storage stays. -/
def forget : LinkM K V Unit := do
  onArena Arena.reset
  fun { arena, .. } => .ok () (ofArena arena)

/-- Release every node of a non-empty tree and forget its slots; an empty tree keeps its
vacant slots. Gives the released values, children before their parents. -/
def clear : LinkM K V (List V × List Event) := do
  match ← getRoot with
  | none => return ([], [])
  | some root =>
    let size ← getSize
    let values ← releaseWithin (2 * (← budget)) [.enter root]
    forget
    return (values, [.cleared size])

end LinkedTree

end RedBlack
