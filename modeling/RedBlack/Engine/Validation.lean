import RedBlack.Engine.Basic

/-!
# Validation

A check of everything that holds of a tree between two operations: increasing keys, the
colouring rules, equal black heights, parent links, and both counts. The check reads a
tree in any state and stops at the first rule that is broken.
-/

namespace RedBlack

namespace Engine

open LinkedTree (node isRed)

variable {σ K V : Type}

/-- Stop if a rule is broken. -/
def require (holds : Bool) (rule : Violation) : EngineM σ K V Unit :=
  if holds then return else throw (.violation rule)

/-- Stop unless the comparator puts `a` before `b`. -/
def requireBefore (comparator : Comparator σ K) (a b : K) : EngineM σ K V Unit := do
  require ((← ask comparator a b) == .lt) .keyOutOfOrder

/-- Stop unless a key lies strictly between two bounds, as far as there are any. The lower
bound is asked about first. -/
def requireBetween (comparator : Comparator σ K) (low high : Option K) (key : K) :
    EngineM σ K V Unit := do
  match low with
  | none => pure ()
  | some low => requireBefore comparator low key
  match high with
  | none => pure ()
  | some high => requireBefore comparator key high

/-- Stop if a node and one of its children are red. -/
def requireBlackChildren (node : Node K V) : EngineM σ K V Unit :=
  match node.color with
  | .black => pure ()
  | .red => do
    require (!(← onTree (isRed node.left))) .redChildOfRed
    require (!(← onTree (isRed node.right))) .redChildOfRed

/-- What the check learns about a subtree. -/
structure Census where
  /-- The black nodes on each path down from the root of the subtree, and one more for the
  missing link at its end. -/
  blackHeight : Nat
  /-- The number of nodes. -/
  size : Nat

/-- Check the subtree at a link, which should hang under `parent` and hold keys strictly
between two bounds, in the given number of levels. -/
def censusWithin (comparator : Comparator σ K) :
    Nat → (link parent : Link) → (low high : Option K) → EngineM σ K V Census
  | _, none, _, _, _ => return { blackHeight := 1, size := 0 }
  | 0, some _, _, _, _ => throw .endless
  | levels + 1, some id, parent, low, high => do
    let node ← onTree (node id)
    require (node.parent == parent) .wrongParent
    requireBetween comparator low high node.key
    requireBlackChildren node
    let less ← censusWithin comparator levels node.left (some id) low (some node.key)
    let greater ← censusWithin comparator levels node.right (some id) (some node.key) high
    require (less.blackHeight == greater.blackHeight) .unequalBlackHeights
    return {
      blackHeight := less.blackHeight + if node.color = .black then 1 else 0
      size := less.size + greater.size + 1 }

/-- Check the tree. Gives its black height. -/
def validate (comparator : Comparator σ K) : EngineM σ K V Nat := do
  let root ← onTree LinkedTree.getRoot
  require (!(← onTree (isRed root))) .redRoot
  let census ← censusWithin comparator (← onTree LinkedTree.budget) root none none none
  let (size, live) ← inspect fun tree => .ok (tree.size, tree.arena.live)
  require (census.size == size) .wrongCount
  require (live == size) .wrongLive
  return census.blackHeight

end Engine

end RedBlack
