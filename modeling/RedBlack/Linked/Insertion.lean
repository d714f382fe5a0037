import RedBlack.Linked.Rotation

/-!
# Insertion

Linking a new node into an empty place, and the repair of a red node under a red parent.
The repair moves up two levels with every recolouring; a rotation ends it. Every action
answers with the events of its steps.
-/

namespace RedBlack

namespace LinkedTree

variable {K V : Type}

/-- Colour a red parent and a red uncle black and the grandparent red. -/
def recolor (parent uncle grand : SlotId) : LinkM K V Unit := do
  paint parent .black
  paint uncle .black
  paint grand .red

/-- Rotate a red node that hangs on the inside of its red parent to the outside. Gives the
lower one of the two. -/
def straighten (z parent : SlotId) (side : Side) : LinkM K V (SlotId × List Event) := do
  if (← node parent).child side.opposite = some z then
    rotate parent side
    return (parent, [.straightened])
  else
    return (z, [])

/-- Let the red parent of an outer red node take the place and the colour of the black
grandparent. -/
def rotateGrandparent (z : SlotId) (side : Side) : LinkM K V Unit := do
  let parent ← resolve (← node z).parent
  let grand ← resolve (← node parent).parent
  paint parent .black
  paint grand .red
  rotate grand side.opposite

/-- Move a red node under a red parent up in the given number of steps until there is no
such pair. -/
def repairRedWithin : Nat → SlotId → LinkM K V (List Event)
  | 0, _ => throw .endless
  | steps + 1, z => do
    match ← ifRed (← node z).parent with
    | none => return []
    | some parent =>
      let grand ← resolve (← node parent).parent
      let side ← childSide (some parent) grand
      match ← ifRed ((← node grand).child side.opposite) with
      | some uncle =>
        recolor parent uncle grand
        return .recolored :: (← repairRedWithin steps grand)
      | none =>
        let (z, events) ← straighten z parent side
        rotateGrandparent z side
        return events ++ .grandparentRotated :: (← repairRedWithin steps z)

/-- Colour the root black. -/
def blackenRoot : LinkM K V Unit := do
  paint (← resolve (← getRoot)) .black

/-- Repair the tree around a red node whose parent may be red too, and colour the root
black. -/
def repairRed (z : SlotId) : LinkM K V (List Event) := do
  let events ← repairRedWithin (← budget) z
  blackenRoot
  return events

/-- Hang a link into the empty place on one side of a node, or at the root. -/
def hang (parent : Link) (side : Side) (link : Link) : LinkM K V Unit :=
  match parent with
  | none => setRoot link
  | some id => linkDown id side link

/-- Store a new entry in the empty place on one side of `parent`, or at the root. The node
is stored before any link is written, so a shortage leaves the tree as it was. -/
def insertAt (parent : Link) (side : Side) (key : K) (value : V) :
    LinkM K V (Except Shortage Unit × List Event) := do
  match ← onArena (Arena.alloc key value parent) with
  | .error cause => return (.error cause, [.refused cause 1])
  | .ok id =>
    hang parent side (some id)
    countUp
    return (.ok (), ← repairRed id)

end LinkedTree

end RedBlack
