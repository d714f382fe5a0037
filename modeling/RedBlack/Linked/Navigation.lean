import RedBlack.Linked.Basic
import RedBlack.Tree

/-!
# Navigation

Walks through a linked tree that change nothing: down one side, down the left chain of a
subtree, and through all of it. Each walk may take as many steps as `Arena.budget` allows,
which no path in a well-linked tree exceeds; running out of steps is the fault `endless`.
-/

namespace RedBlack

namespace Arena

variable {K V : Type}

/-- The last node reached from `id` by walking towards one side in the given number of
steps. -/
def outermostWithin (arena : Arena K V) (side : Side) : Nat → SlotId → Except Fault SlotId
  | 0, _ => .error .endless
  | steps + 1, id => do
    match (← arena.get id).child side with
    | none => return id
    | some next => arena.outermostWithin side steps next

/-- The last node reached from `id` by walking towards one side. -/
def outermostFrom (arena : Arena K V) (side : Side) (id : SlotId) : Except Fault SlotId :=
  arena.outermostWithin side arena.budget id

/-- Push a node and its chain of left descendants on a stack in the given number of steps. -/
def leftChainWithin (arena : Arena K V) : Nat → Link → List SlotId → Except Fault (List SlotId)
  | _, none, stack => .ok stack
  | 0, some _, _ => .error .endless
  | steps + 1, some id, stack => do
    arena.leftChainWithin steps (← arena.get id).left (id :: stack)

/-- Push a node and its chain of left descendants on a stack, whose top is its head. -/
def leftChain (arena : Arena K V) (link : Link) (stack : List SlotId) :
    Except Fault (List SlotId) :=
  arena.leftChainWithin arena.budget link stack

/-- The subtree at a link if it has no more than the given number of levels. -/
def treeWithin (arena : Arena K V) : Nat → Link → Except Fault (Tree (K × V))
  | _, none => .ok .nil
  | 0, some _ => .error .endless
  | levels + 1, some id => do
    let node ← arena.get id
    let left ← arena.treeWithin levels node.left
    let right ← arena.treeWithin levels node.right
    return .node node.color left node.entry right

end Arena

namespace LinkedTree

variable {K V : Type}

/-- The outermost node on one side, missing when the tree is empty. -/
def outermost? (tree : LinkedTree K V) (side : Side) : Except Fault Link :=
  match tree.root with
  | none => .ok none
  | some root => some <$> tree.arena.outermostFrom side root

/-- The outermost entry on one side, if there is one. -/
def outermostEntry? (tree : LinkedTree K V) (side : Side) : Except Fault (Option (K × V)) := do
  match ← tree.outermost? side with
  | none => return none
  | some id => return some (← tree.arena.get id).entry

/-- The shape of the tree, with its colours and entries. -/
def toTree (tree : LinkedTree K V) : Except Fault (Tree (K × V)) :=
  tree.arena.treeWithin tree.arena.budget tree.root

/-- The number of nodes on the longest path from the root to a leaf. -/
def height (tree : LinkedTree K V) : Except Fault Nat :=
  Tree.height <$> tree.toTree

end LinkedTree

end RedBlack
