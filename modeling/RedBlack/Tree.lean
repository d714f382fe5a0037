import RedBlack.Basic

/-!
# Coloured Trees

Binary trees with a colour and an entry at every node: the shape of a stored tree once its
slots and links are forgotten.
-/

namespace RedBlack

/-- A binary tree with a colour and an entry at every node. -/
inductive Tree (α : Type) where
  /-- The empty tree. -/
  | nil
  /-- A node between its two subtrees. -/
  | node (color : Color) (left : Tree α) (entry : α) (right : Tree α)
deriving DecidableEq

namespace Tree

variable {α β : Type}

/-- The entries from left to right. -/
def toList : Tree α → List α
  | nil => []
  | node _ left entry right => left.toList ++ entry :: right.toList

/-- The entries with both subtrees of a node before the node. -/
def postorder : Tree α → List α
  | nil => []
  | node _ left entry right => left.postorder ++ right.postorder ++ [entry]

/-- The number of nodes. -/
def size : Tree α → Nat
  | nil => 0
  | node _ left _ right => left.size + right.size + 1

/-- The number of nodes on the longest path from the root to a leaf. -/
def height : Tree α → Nat
  | nil => 0
  | node _ left _ right => max left.height right.height + 1

/-- Apply a function to every entry. -/
def map (f : α → β) : Tree α → Tree β
  | nil => nil
  | node color left entry right => node color (left.map f) (f entry) (right.map f)

/-- Left and right exchanged everywhere. -/
def reflect : Tree α → Tree α
  | nil => nil
  | node color left entry right => node color right.reflect entry left.reflect

/-- The size is the number of entries. -/
@[simp]
theorem length_toList (tree : Tree α) : tree.toList.length = tree.size := by
  induction tree with
  | nil => rfl
  | node color left entry right ihl ihr => simp [toList, size, ihl, ihr]; omega

/-- Both orders visit every entry. -/
@[simp]
theorem length_postorder (tree : Tree α) : tree.postorder.length = tree.size := by
  induction tree with
  | nil => rfl
  | node color left entry right ihl ihr => simp [postorder, size, ihl, ihr]; omega

/-- Both orders visit the same entries. -/
theorem postorder_perm (tree : Tree α) : tree.postorder.Perm tree.toList := by
  induction tree with
  | nil => rfl
  | node color left entry right ihl ihr =>
    have hentry := (List.perm_append_singleton entry right.toList).append_left left.toList
    rw [← List.append_assoc] at hentry
    exact ((ihl.append ihr).append_right [entry]).trans hentry

/-- Mapping the entries maps the list of entries. -/
@[simp]
theorem toList_map (f : α → β) (tree : Tree α) : (tree.map f).toList = tree.toList.map f := by
  induction tree with
  | nil => rfl
  | node color left entry right ihl ihr => simp [map, toList, ihl, ihr]

/-- The reflection lists the entries backwards. -/
@[simp]
theorem toList_reflect (tree : Tree α) : tree.reflect.toList = tree.toList.reverse := by
  induction tree with
  | nil => rfl
  | node color left entry right ihl ihr => simp [reflect, toList, ihl, ihr]

/-- Reflecting twice gives the tree itself. -/
@[simp]
theorem reflect_reflect (tree : Tree α) : tree.reflect.reflect = tree := by
  induction tree with
  | nil => rfl
  | node color left entry right ihl ihr => simp [reflect, ihl, ihr]

end Tree

end RedBlack
