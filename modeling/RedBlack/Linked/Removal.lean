import RedBlack.Linked.Navigation
import RedBlack.Linked.Rotation

/-!
# Removal

Taking a node out of the tree, and the repair of a place whose paths are one black node
short. The repair pushes the shortage up until a red node, a red sibling or a red nephew
can pay for it. A removed node is relinked around, so every other entry stays in its slot.
-/

namespace RedBlack

namespace LinkedTree

variable {K V : Type}

/-! ## Unlinking -/

/-- The place that a node was taken out of. -/
structure Vacancy where
  /-- The subtree that fills the place. -/
  child : Link
  /-- The node that owns the place, missing at the root. -/
  parent : Link
  /-- The colour that the paths through the place lost. -/
  color : Color

/-- Take the successor of `z`, which is not its right child, out of the right subtree and
make that subtree its own. -/
def detachSuccessor (successor right : SlotId) (child : Link) : LinkM K V Unit := do
  substitute successor child
  linkDown successor .right (some right)
  linkUp (some right) (some successor)

/-- Let the successor of `z`, the leftmost node of its right subtree, take the place, the
left subtree and the colour of `z`. -/
def promoteSuccessor (z left right : SlotId) : LinkM K V Vacancy := do
  let successor ← inspect fun tree => tree.arena.outermostFrom .left right
  let { right := child, parent, color, .. } ← node successor
  let parent ←
    if successor = right then pure (some successor)
    else do
      detachSuccessor successor right child
      pure parent
  substitute z (some successor)
  linkDown successor .left (some left)
  linkUp (some left) (some successor)
  paint successor (← node z).color
  return { child, parent, color }

/-- Take `z` out of the tree and say where a black node may be missing now. The slot of `z`
keeps its node. -/
def unlink (z : SlotId) : LinkM K V Vacancy := do
  let { left, right, parent, color, .. } ← node z
  match left, right with
  | some left, some right => promoteSuccessor z left right
  | none, child | child, none =>
    substitute z child
    return { child, parent, color }

/-! ## Repair -/

/-- The sibling on one side of a node, which must exist. -/
def sibling (parent : SlotId) (side : Side) : LinkM K V SlotId := do
  match (← node parent).child side with
  | some id => return id
  | none => throw .missingSibling

/-- If the sibling on the far side of `parent` is red, rotate it above `parent`, which
leaves a black sibling. Gives the sibling. -/
def rotateRedSibling (parent : SlotId) (side : Side) : LinkM K V (SlotId × List Event) := do
  let red ← sibling parent side.opposite
  if ← isRed (some red) then
    paint red .black
    paint parent .red
    rotate parent side
    return (← sibling parent side.opposite, [.siblingRotated])
  else
    return (red, [])

/-- Rotate the red nephew on the near side above the sibling, which leaves a red nephew on
the far side. Gives the new sibling. -/
def rotateNearNephew (parent sibling near : SlotId) (side : Side) :
    LinkM K V (SlotId × List Event) := do
  paint near .black
  paint sibling .red
  rotate sibling side.opposite
  return (← LinkedTree.sibling parent side.opposite, [.nearNephew])

/-- Let the sibling take the place and the colour of `parent`, and its red far child turn
black: the paths on `side` gain the missing black node. -/
def rotateFarNephew (parent sibling : SlotId) (side : Side) : LinkM K V Unit := do
  paint sibling (← node parent).color
  paint parent .black
  paint (← resolve ((← node sibling).child side.opposite)) .black
  rotate parent side

/-- Repay a missing black node at a place in the given number of steps. Gives the node that
turns black in the end. -/
def repairShortWithin : Nat → (place parent : Link) → LinkM K V (Link × List Event)
  | 0, _, _ => throw .endless
  | steps + 1, place, parent => do
    if place = (← getRoot) then return (place, [])
    else if ← isRed place then return (place, [])
    else
      let parent ← resolve parent
      let side ← childSide place parent
      let (sibling, first) ← rotateRedSibling parent side
      let nephews ← node sibling
      let near ← ifRed (nephews.child side)
      let far ← ifRed (nephews.child side.opposite)
      match near, far with
      | none, none =>
        paint sibling .red
        let (place, events) ← repairShortWithin steps (some parent) (← node parent).parent
        return (place, first ++ .deficiencyPushed :: events)
      | some near, none =>
        let (sibling, second) ← rotateNearNephew parent sibling near side
        rotateFarNephew parent sibling side
        return (← getRoot, first ++ second ++ [.farNephew])
      | _, some _ =>
        rotateFarNephew parent sibling side
        return (← getRoot, first ++ [.farNephew])

/-- Repair the tree after the paths through a place lost a black node. -/
def repairShort (place parent : Link) : LinkM K V (List Event) := do
  let (place, events) ← repairShortWithin (← budget) place parent
  match place with
  | none => return events
  | some id =>
    paint id .black
    return events

/-- Take a node out of the tree, repair the tree, and vacate its slot. -/
def erase (z : SlotId) : LinkM K V ((K × V) × List Event) := do
  let { child, parent, color } ← unlink z
  let events ← if color = .black then repairShort child parent else pure []
  countDown
  return (← onArena (Arena.free z), events)

end LinkedTree

end RedBlack
