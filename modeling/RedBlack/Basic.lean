/-!
# Colours and Sides

The two colours of a node and the two sides a child can hang from. Every rebalancing
step is written once over a `Side`; its reflection is the same step at
`Side.opposite`.
-/

namespace RedBlack

/-- The colour of a node. -/
inductive Color where
  /-- A node that adds nothing to the black height and owns no red child. -/
  | red
  /-- A node that counts towards the black height. -/
  | black
deriving DecidableEq

/-- The side of a parent from which a child hangs. -/
inductive Side where
  /-- The side of the smaller keys. -/
  | left
  /-- The side of the greater keys. -/
  | right
deriving DecidableEq

namespace Side

/-- The other side. -/
def opposite : Side → Side
  | left => right
  | right => left

/-- Taking the other side twice gives the side itself. -/
@[simp]
theorem opposite_opposite (side : Side) : side.opposite.opposite = side := by
  cases side <;> rfl

/-- A side differs from its opposite. -/
theorem opposite_ne (side : Side) : side.opposite ≠ side := by
  cases side <;> decide

end Side

end RedBlack
