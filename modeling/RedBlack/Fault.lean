/-!
# Faults

What stops an operation for good. A fault is a broken promise between the parts of the
library, never an answer to a caller: it is raised where the engine relies on a link, a
counter or a loop being in order and finds that it is not.
-/

namespace RedBlack

/-- An invariant that a validated tree breaks. -/
inductive Violation where
  /-- The root is red. -/
  | redRoot
  /-- A parent link does not name the owner of the node. -/
  | wrongParent
  /-- A key is not strictly between the bounds that its ancestors set. -/
  | keyOutOfOrder
  /-- A red node owns a red child. -/
  | redChildOfRed
  /-- The two subtrees of a node have different black heights. -/
  | unequalBlackHeights
  /-- The size differs from the number of reachable nodes. -/
  | wrongCount
  /-- The number of live slots differs from the size. -/
  | wrongLive
deriving DecidableEq

/-- The wording of a violated invariant. -/
def Violation.message : Violation → String
  | redRoot => "root must be black"
  | wrongParent => "parent link must point at the owning node"
  | keyOutOfOrder => "in-order keys must increase"
  | redChildOfRed => "red node with red child"
  | unequalBlackHeights => "black height must be uniform"
  | wrongCount => "reachable node count must match len"
  | wrongLive => "arena must hold exactly the reachable nodes"

/-- What stopped an operation. -/
inductive Fault where
  /-- A missing link was followed. -/
  | missingLink
  /-- A vacant slot was read or written as a node. -/
  | danglingNode
  /-- A vacant slot was vacated again. -/
  | doubleFree
  /-- The free list led to a live node. -/
  | corruptFreeList
  /-- A slot number is not below the number of slots. -/
  | outOfBounds (size index : Nat)
  /-- A counter was to be lowered below zero. -/
  | underflow
  /-- A rotation found no child to lift. -/
  | nothingToLift
  /-- A node that is one black node short has no sibling. -/
  | missingSibling
  /-- The size of a tree differs from the number of its live slots. -/
  | sizeMismatch
  /-- Node storage was reset while it held `live` nodes. -/
  | resetWithLiveNodes (live : Nat)
  /-- A validated tree breaks an invariant. -/
  | violation (broken : Violation)
  /-- A loop ran longer than any tree in the storage allows. -/
  | endless
deriving DecidableEq

/-- The wording of a fault. -/
def Fault.message : Fault → String
  | missingLink => "assertion failed: !self.is_nil()"
  | danglingNode => "internal error: entered unreachable code: dangling node id"
  | doubleFree => "internal error: entered unreachable code: double free of node slot"
  | corruptFreeList =>
    "internal error: entered unreachable code: free list points at a live node"
  | outOfBounds size index => s!"index out of bounds: the len is {size} but the index is {index}"
  | underflow => "attempt to subtract with overflow"
  | nothingToLift => "rotation needs a child to lift"
  | missingSibling => "double-black node without sibling"
  | sizeMismatch => "size must match the live nodes"
  | resetWithLiveNodes live =>
    s!"assertion `left == right` failed: reset with live nodes\n  left: {live}\n right: 0"
  | violation broken => broken.message
  | endless => "loop without end"

end RedBlack
