import RedBlack.Arena.Basic

/-!
# Linked Trees

A tree whose nodes lie in an arena and own each other through slot numbers, with the
actions that read and write single fields of it. Every read or write of a slot that holds
no node is a fault.
-/

namespace RedBlack

/-- A tree of linked nodes. -/
structure LinkedTree (K V : Type) where
  /-- The storage of the nodes. -/
  arena : Arena K V
  /-- The root, missing when the tree is empty. -/
  root : Link
  /-- The number of entries. -/
  size : Nat

/-- An action on a linked tree that may end in a fault. -/
abbrev LinkM (K V : Type) := EStateM Fault (LinkedTree K V)

namespace LinkedTree

variable {K V : Type}

/-- The tree without nodes over some storage. -/
def ofArena (arena : Arena K V) : LinkedTree K V :=
  { arena, root := none, size := 0 }

/-- The tree without nodes or storage. -/
def empty (room : Room) : LinkedTree K V :=
  ofArena (Arena.empty room)

/-- A copy of the tree, slot by slot, in storage of its own. -/
def copy (tree : LinkedTree K V) : LinkedTree K V :=
  { tree with arena := tree.arena.copy }

/-- Answer a question about the tree and leave it as it is. -/
def inspect {α : Type} (question : LinkedTree K V → Except Fault α) : LinkM K V α :=
  fun tree =>
    match question tree with
    | .ok answer => .ok answer tree
    | .error fault => .error fault tree

/-- A bound on the length of every path in the tree. -/
def budget : LinkM K V Nat :=
  fun tree => .ok tree.arena.budget tree

/-- The root of the tree. -/
def getRoot : LinkM K V Link :=
  fun tree => .ok tree.root tree

/-- The number of entries. -/
def getSize : LinkM K V Nat :=
  fun tree => .ok tree.size tree

/-- Act on the storage of the tree. -/
def onArena {α : Type} (action : ArenaM K V α) : LinkM K V α :=
  fun { arena, root, size } =>
    match action arena with
    | .ok answer arena => .ok answer { arena, root, size }
    | .error fault arena => .error fault { arena, root, size }

/-- The live node in a slot. -/
def node (id : SlotId) : LinkM K V (Node K V) :=
  inspect fun tree => tree.arena.get id

/-- The slot number at the end of a link that must not be missing. -/
def resolve (link : Link) : LinkM K V SlotId :=
  inspect fun _ => link.resolve

/-- Whether a link leads to a red node; a missing link counts as black. -/
def isRed : Link → LinkM K V Bool
  | none => return false
  | some id => return (← node id).color == .red

/-- A link, if it leads to a red node. -/
def ifRed (link : Link) : LinkM K V Link := do
  return if ← isRed link then link else none

/-- The side of `parent` from which a link hangs. The link may be missing if the other side
is occupied, so only the left side is looked at. -/
def childSide (link : Link) (parent : SlotId) : LinkM K V Side := do
  return if (← node parent).left = link then .left else .right

/-- Change the live node in a slot. -/
def modifyNode (id : SlotId) (change : Node K V → Node K V) : LinkM K V Unit :=
  onArena (Arena.modify id change)

/-- Make a link the root. -/
def setRoot (link : Link) : LinkM K V Unit :=
  fun tree => .ok () { tree with root := link }

/-- Recolour a live node. -/
def paint (id : SlotId) (color : Color) : LinkM K V Unit :=
  modifyNode id fun node => node.withColor color

/-- Replace a child link of a live node. -/
def linkDown (id : SlotId) (side : Side) (link : Link) : LinkM K V Unit :=
  modifyNode id fun node => node.withChild side link

/-- Replace the parent link of the node at the end of a link; a missing link has none. -/
def linkUp (link parent : Link) : LinkM K V Unit :=
  match link with
  | none => pure ()
  | some id => modifyNode id fun node => node.withParent parent

/-- Replace the value of a live node and give the old one. -/
def replaceValue (id : SlotId) (value : V) : LinkM K V V := do
  let { value := old, .. } ← node id
  modifyNode id fun node => node.withValue value
  return old

/-- Count one more entry, which must keep up with the live slots. -/
def countUp : LinkM K V Unit :=
  fun tree =>
    let size := tree.size + 1
    if size = tree.arena.live then .ok () { tree with size }
    else .error .sizeMismatch { tree with size }

/-- Count one entry less. -/
def countDown : LinkM K V Unit :=
  fun tree =>
    match tree.size with
    | 0 => .error .underflow tree
    | size + 1 => .ok () { tree with size }

end LinkedTree

end RedBlack
