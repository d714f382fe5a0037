import RedBlack.Linked.Basic

/-!
# Rotation

The actions that relink whole subtrees: replacing a child, replacing a subtree, and
rotating. They write links only, so no entry moves to another slot.
-/

namespace RedBlack

namespace LinkedTree

variable {K V : Type}

/-- Put `new` where `old` hangs under `parent`, or at the root if there is no parent. -/
def relink (parent old new : Link) : LinkM K V Unit := do
  match parent with
  | none => setRoot new
  | some id =>
    linkDown id (← childSide old id) new
  linkUp new parent

/-- Replace the subtree at `old` by the subtree at `new`. -/
def substitute (old : SlotId) (new : Link) : LinkM K V Unit := do
  relink (← node old).parent (some old) new

/-- Rotate `x` down towards one side; its child on the other side takes its place. -/
def rotate (x : SlotId) (side : Side) : LinkM K V Unit := do
  match (← node x).child side.opposite with
  | none => throw .nothingToLift
  | some y =>
    let inner := (← node y).child side
    linkDown x side.opposite inner
    linkUp inner (some x)
    relink (← node x).parent (some x) (some y)
    linkDown y side (some x)
    linkUp (some x) (some y)

end LinkedTree

end RedBlack
