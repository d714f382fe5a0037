import RedBlack.Proofs.Linked.Determination
import RedBlack.Proofs.Tree.Mapping

/-!
# Skeletons

The skeleton of a linked tree is what is left of it if the values of its entries are forgotten,
and how much memory there was for them: the keys, the colours, the links, the slots and the order
in which they were vacated, and the counts. This is all that a set and a map can have in common.

A linked tree of keys alone has the layout of the skeleton, so two linked trees whose layouts
have the same skeleton have the same skeleton themselves (`LinkedTree.LaidOut.skeleton_eq`).
-/

namespace RedBlack

variable {K V W : Type}

/-- The node without its value. -/
def Node.skeleton (node : Node K V) : Node K Unit :=
  { key := node.key, value := (), color := node.color, parent := node.parent, left := node.left
    right := node.right }

/-- The slot without the value of its node. -/
def Slot.skeleton : Slot K V → Slot K Unit
  | .occupied node => .occupied node.skeleton
  | .vacant next => .vacant next

/-- The arena without values, and without what is known about memory. -/
def Arena.skeleton (arena : Arena K V) : Arena K Unit :=
  { slots := arena.slots.map Slot.skeleton, lastVacated := arena.lastVacated, live := arena.live
    capacity := arena.capacity, room := ⟨0, 0⟩ }

/-- The linked tree without values. -/
def LinkedTree.skeleton (linked : LinkedTree K V) : LinkedTree K Unit :=
  { arena := linked.arena.skeleton, root := linked.root, size := linked.size }

/-- The cell without its value. -/
def Cell.skeleton (cell : Cell K V) : Cell K Unit :=
  { slot := cell.slot, key := cell.key, value := () }

/-- The layout without values, and without what is known about memory. -/
def Layout.skeleton (layout : Layout K V) : Layout K Unit :=
  { tree := layout.tree.map Cell.skeleton, vacated := layout.vacated, capacity := layout.capacity
    room := ⟨0, 0⟩ }

namespace Tree

@[simp]
theorem link_skeleton (tree : Tree (Cell K V)) : (tree.map Cell.skeleton).link = tree.link := by
  cases tree <;> rfl

@[simp]
theorem slots_skeleton (tree : Tree (Cell K V)) : (tree.map Cell.skeleton).slots = tree.slots := by
  rw [slots, toList_map, List.map_map]
  rfl

end Tree

namespace Arena

variable {arena : Arena K V} {parent link : Link} {tree : Tree (Cell K V)}
  {occupied vacated : List SlotId}

theorem node?_skeleton (arena : Arena K V) (id : SlotId) :
    arena.skeleton.node? id = (arena.node? id).map Node.skeleton := by
  simp only [node?, skeleton, Array.getElem?_map]
  rcases arena.slots[id]? with _ | _ | _ <;> rfl

theorem Stores.skeleton (h : arena.Stores parent tree) :
    arena.skeleton.Stores parent (tree.map Cell.skeleton) := by
  induction tree generalizing parent with
  | nil => trivial
  | node color left cell right ihl ihr =>
    obtain ⟨hnode, hleft, hright⟩ := h
    refine ⟨?_, ihl hleft, ihr hright⟩
    -- of the node itself, the links and the colour stay
    rw [node?_skeleton, Tree.link_skeleton]
    refine (congrArg (Option.map Node.skeleton) hnode).trans ?_
    simp only [Tree.Frame.node, Tree.link_skeleton]
    rfl

theorem Chain.skeleton (h : arena.Chain link vacated) : arena.skeleton.Chain link vacated := by
  induction vacated generalizing link with
  | nil => exact h
  | cons id rest ih =>
    obtain ⟨hlink, next, hslot, hrest⟩ := h
    refine ⟨hlink, next, ?_, ih hrest⟩
    rw [Arena.skeleton, Array.getElem?_map, hslot]
    rfl

theorem Holds.skeleton (h : arena.Holds occupied vacated) :
    arena.skeleton.Holds occupied vacated where
  chain := h.chain.skeleton
  exists_node := by
    intro id hid
    obtain ⟨node, hnode⟩ := h.exists_node id hid
    exact ⟨node.skeleton, (node?_skeleton arena id).trans (congrArg _ hnode)⟩
  partition := by
    rw [Arena.skeleton, Array.size_map]
    exact h.partition
  live := h.live

end Arena

namespace LinkedTree

variable {linked : LinkedTree K V} {other : LinkedTree K W} {layout : Layout K V}
  {layout' : Layout K W}

/-- Without values, a linked tree is laid out as before. -/
theorem LaidOut.skeleton (h : linked.LaidOut layout) : linked.skeleton.LaidOut layout.skeleton where
  shows := by
    refine ⟨?_, h.shows.2.skeleton⟩
    rw [Layout.skeleton, Tree.link_skeleton]
    exact h.shows.1
  storage := by
    rw [Layout.skeleton, Tree.slots_skeleton]
    exact h.storage.skeleton
  balanced := by
    obtain ⟨n, hn⟩ := h.balanced
    exact ⟨n, hn.map Cell.skeleton⟩
  size := h.size.trans (Tree.size_map Cell.skeleton layout.tree).symm
  capacity := h.capacity
  room := rfl

/-- What linked trees have in common besides their values is what their layouts have. -/
theorem LaidOut.skeleton_eq (h : linked.LaidOut layout) (h' : other.LaidOut layout')
    (hlayout : layout.skeleton = layout'.skeleton) : linked.skeleton = other.skeleton := by
  have hskeleton := h.skeleton
  rw [hlayout] at hskeleton
  exact hskeleton.unique h'.skeleton

end LinkedTree

end RedBlack
