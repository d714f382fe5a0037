import RedBlack.Basic
import RedBlack.Fault

/-!
# Nodes

A node as it lies in a slot: its entry, its colour, and its links to the slots of its
parent and children.
-/

namespace RedBlack

/-- The number of a slot. -/
abbrev SlotId := Nat

/-- A link to a node; `none` is the missing link below a leaf and above the root. -/
abbrev Link := Option SlotId

/-- The slot number at the end of a link that must not be missing. -/
def Link.resolve : Link → Except Fault SlotId
  | some id => .ok id
  | none => .error .missingLink

/-- A stored node. The child links own their subtrees; the parent link serves rotations
and splices only. -/
structure Node (K V : Type) where
  /-- The stored key. -/
  key : K
  /-- The stored value. -/
  value : V
  /-- The colour of the node. -/
  color : Color
  /-- The owner of the node, missing at the root. -/
  parent : Link
  /-- The root of the left subtree. -/
  left : Link
  /-- The root of the right subtree. -/
  right : Link

namespace Node

variable {K V : Type}

/-- A red node without children. -/
def leaf (key : K) (value : V) (parent : Link) : Node K V :=
  { key, value, color := .red, parent, left := none, right := none }

/-- The child on one side. -/
def child (node : Node K V) : Side → Link
  | .left => node.left
  | .right => node.right

/-- Replace the child on one side. -/
def withChild (node : Node K V) (side : Side) (link : Link) : Node K V :=
  match side with
  | .left => { node with left := link }
  | .right => { node with right := link }

/-- Replace the parent link. -/
def withParent (node : Node K V) (link : Link) : Node K V :=
  { node with parent := link }

/-- Replace the colour. -/
def withColor (node : Node K V) (color : Color) : Node K V :=
  { node with color }

/-- Replace the value. -/
def withValue (node : Node K V) (value : V) : Node K V :=
  { node with value }

/-- The key and value of the node. -/
def entry (node : Node K V) : K × V :=
  (node.key, node.value)

/-- The child just set is the child. -/
@[simp]
theorem child_withChild (node : Node K V) (side : Side) (link : Link) :
    (node.withChild side link).child side = link := by
  cases side <;> rfl

/-- The child on the other side stays. -/
@[simp]
theorem child_opposite_withChild (node : Node K V) (side : Side) (link : Link) :
    (node.withChild side link).child side.opposite = node.child side.opposite := by
  cases side <;> rfl

/-- Relinking a child keeps the entry. -/
@[simp]
theorem entry_withChild (node : Node K V) (side : Side) (link : Link) :
    (node.withChild side link).entry = node.entry := by
  cases side <;> rfl

/-- Relinking a child keeps the colour. -/
@[simp]
theorem color_withChild (node : Node K V) (side : Side) (link : Link) :
    (node.withChild side link).color = node.color := by
  cases side <;> rfl

/-- Relinking the parent keeps the entry. -/
@[simp]
theorem entry_withParent (node : Node K V) (link : Link) :
    (node.withParent link).entry = node.entry := rfl

/-- Relinking the parent keeps the colour. -/
@[simp]
theorem color_withParent (node : Node K V) (link : Link) :
    (node.withParent link).color = node.color := rfl

/-- Recolouring keeps the entry. -/
@[simp]
theorem entry_withColor (node : Node K V) (color : Color) :
    (node.withColor color).entry = node.entry := rfl

end Node

end RedBlack
