import RedBlack.Proofs.Linked.Determination

/-!
# Pivots

A rotation turns a tree around a `Pivot`: a node and a child of it, which are two frames that look
away from each other. Node and child change places (`Pivot.swap`) around the subtree between them,
so the entries keep their order, and turning twice gives the tree itself.

On links the same holds to the last slot. A rotation writes to the links of four nodes at most
(`LinkedTree.rewiredAt_turned`), and leaves the tree that is turned around the pivot
(`LinkedTree.Depicts.turned`). Rotating the child back leaves the first tree again, and since a
tree determines the slots it lies in, nothing is left of the two rotations
(`LinkedTree.Depicts.turned_turned`).

Main result: `LinkedTree.rotate_reversible`, at every node that has a child to lift, of every tree
of linked nodes.
-/

namespace RedBlack

namespace Tree

variable {α : Type}

/-- A place around which a tree can be turned: two frames, one above the other, that lie on
opposite sides of the subtree in them. -/
structure Pivot (α : Type) where
  /-- The node that moves down, to the side of the lower frame. -/
  upper : Frame α
  /-- The child that takes its place. -/
  lower : Frame α
  /-- The subtree in both frames, which goes over from the child to the node. -/
  inner : Tree α
  /-- The path from the node to the root. -/
  path : Path α
  /-- The child hangs from the side that the node moves away from. -/
  side_eq : upper.side = lower.side.opposite

/-- Two frames that hang on opposite sides can be closed in either order. -/
theorem toList_close_close {upper lower : Frame α} (h : upper.side = lower.side.opposite)
    (inner : Tree α) :
    (lower.close (upper.close inner)).toList = (upper.close (lower.close inner)).toList := by
  obtain ⟨_, c, x, near⟩ := upper
  obtain ⟨side, d, y, far⟩ := lower
  subst h
  -- both nodes are seen from the side that the upper one moves down to
  simp only [Frame.close, join_opposite]
  exact (toList_rotate side).symm

namespace Pivot

/-- The tree with the child below the node. -/
def tree (pivot : Pivot α) : Tree α :=
  pivot.inner.under (pivot.lower :: pivot.upper :: pivot.path)

/-- The pivot after the rotation, with the node below the child. -/
def swap (pivot : Pivot α) : Pivot α where
  upper := pivot.lower
  lower := pivot.upper
  inner := pivot.inner
  path := pivot.path
  side_eq := by rw [pivot.side_eq, Side.opposite_opposite]

/-- Turning a tree twice gives the tree itself. -/
@[simp]
theorem swap_swap (pivot : Pivot α) : pivot.swap.swap = pivot := rfl

/-- Turning a tree keeps its entries and their order. -/
@[simp]
theorem toList_swap (pivot : Pivot α) : pivot.swap.tree.toList = pivot.tree.toList :=
  toList_under_congr (toList_close_close pivot.side_eq pivot.inner) pivot.path

end Pivot

variable {K V : Type} {tree : Tree (Cell K V)} {id : SlotId}

/-- Every slot of a tree holds the root of a subtree. -/
theorem exists_place_of_mem_slots (h : id ∈ tree.slots) :
    ∃ (low : Tree (Cell K V)) (path : Path (Cell K V)),
      low.under path = tree ∧ low.link = some id := by
  obtain ⟨cell, hcell, rfl⟩ := List.mem_map.1 h
  obtain ⟨color, left, right, path, htree⟩ := exists_under_of_mem hcell []
  exact ⟨node color left cell right, path, htree, rfl⟩

/-- A tree with a root is a frame closed around its subtree on either side. -/
theorem exists_close_of_link (h : tree.link = some id) (side : Side) :
    ∃ (frame : Frame (Cell K V)) (inner : Tree (Cell K V)),
      frame.close inner = tree ∧ frame.entry.slot = id ∧ frame.side = side := by
  cases tree with
  | nil => cases h
  | node color left cell right =>
    cases h
    cases side with
    | left => exact ⟨⟨.left, color, cell, right⟩, left, rfl, rfl, rfl⟩
    | right => exact ⟨⟨.right, color, cell, left⟩, right, rfl, rfl, rfl⟩

namespace Pivot

/-- The links to the nodes that a rotation writes to: the two that change places, the root of the
inner subtree and the owner of the place. -/
def ends (pivot : Pivot (Cell K V)) : List Link :=
  [some pivot.upper.entry.slot, some pivot.lower.entry.slot, pivot.inner.link,
    Path.owner pivot.path]

/-- A rotation writes to no node outside of the tree. -/
theorem mem_slots_of_mem_ends {pivot : Pivot (Cell K V)} (h : some id ∈ pivot.ends) :
    id ∈ pivot.tree.slots := by
  rw [tree, mem_slots_under]
  simp only [ends, List.mem_cons, List.not_mem_nil, or_false, Option.some.injEq] at h
  simp only [Path.slots, List.mem_cons, List.mem_append]
  rcases h with rfl | rfl | hinner | howner
  · exact .inr (.inr (.inr (.inl rfl)))
  · exact .inr (.inl rfl)
  · exact .inl (mem_slots_of_link hinner.symm)
  · exact .inr (.inr (.inr (.inr (.inr (Path.mem_slots_of_owner howner.symm)))))

end Pivot

end Tree

namespace LinkedTree

open RedBlack.Tree (Frame Path Pivot)

variable {K V : Type} {linked : LinkedTree K V} {tree : Tree (Cell K V)}
  {pivot : Pivot (Cell K V)} {side : Side} {x y : SlotId} {node : Node K V}

/-- The linked tree after a rotation around a pivot. -/
def turned (pivot : Pivot (Cell K V)) (linked : LinkedTree K V) : LinkedTree K V :=
  linked.rotated pivot.upper.entry.slot pivot.lower.entry.slot pivot.inner.link pivot.lower.side
    pivot.path

/-- A rotation changes links only, and only those of its four nodes. -/
theorem rewiredAt_turned (pivot : Pivot (Cell K V)) (linked : LinkedTree K V) :
    linked.RewiredAt (linked.turned pivot) pivot.ends :=
  rewiredAt_rotated ..

namespace Depicts

/-- A node with a child on one side is a pivot of the rotation to the other side. -/
theorem exists_pivot (h : linked.Depicts tree) (hx : x ∈ tree.slots)
    (hnode : linked.arena.node? x = some node) (hchild : node.child side.opposite = some y) :
    ∃ pivot : Pivot (Cell K V), pivot.tree = tree ∧ pivot.upper.entry.slot = x ∧
      pivot.lower.entry.slot = y ∧ pivot.lower.side = side := by
  obtain ⟨low, path, rfl, hlow⟩ := Tree.exists_place_of_mem_slots hx
  obtain ⟨upper, outer, rfl, rfl, hupper⟩ := Tree.exists_close_of_link hlow side.opposite
  -- the child is the root of the subtree that is stored on its side
  obtain ⟨-, hstored⟩ := shows_under_iff.1 h.shows
  obtain ⟨hread, -⟩ := Arena.Stores.close_iff.1 hstored
  cases hnode.symm.trans hread
  rw [← hupper, Frame.child_node] at hchild
  obtain ⟨lower, inner, rfl, hy, hlower⟩ := Tree.exists_close_of_link hchild side
  exact ⟨⟨upper, lower, inner, path, hlower ▸ hupper⟩, rfl, rfl, hy, hlower⟩

variable (h : linked.Depicts pivot.tree)

include h

/-- The node above the pivot, with the owner of the place as its parent. -/
theorem node?_upper :
    linked.arena.node? pivot.upper.entry.slot =
      some (pivot.upper.node (some pivot.lower.entry.slot) (Path.owner pivot.path)) := by
  obtain ⟨⟨-, -, hnode, -⟩, -⟩ := shows_under_iff.1 h.shows
  exact hnode

/-- The child below the pivot, which holds the inner subtree. -/
theorem node?_lower :
    linked.arena.node? pivot.lower.entry.slot =
      some (pivot.lower.node pivot.inner.link (some pivot.upper.entry.slot)) := by
  obtain ⟨⟨hnode, -⟩, -⟩ := shows_under_iff.1 h.shows
  exact hnode

/-- Rotating around a pivot never lacks a node to read or to write. -/
theorem rotate_eq_turned :
    rotate pivot.upper.entry.slot pivot.lower.side linked = .ok () (linked.turned pivot) :=
  rotate_eq_ok_rotated h.shows h.nodup pivot.side_eq

/-- After the rotation, the links form the tree that is turned around the pivot. -/
theorem turned : (linked.turned pivot).Depicts pivot.swap.tree :=
  h.of_toList_eq (shows_rotated h.shows h.nodup pivot.side_eq) pivot.toList_swap

/-- The root changes if the node was the root, and only then. -/
theorem root_turned :
    (linked.turned pivot).root =
      if Path.owner pivot.path = none then some pivot.lower.entry.slot else linked.root := by
  rw [h.turned.shows.1, h.shows.1]
  obtain ⟨upper, lower, inner, path, hside⟩ := pivot
  cases path with
  | nil => exact (Frame.link_close ..).trans (if_pos rfl).symm
  | cons frame path =>
    -- the root is further up, and does not depend on what hangs below
    have hroot := Tree.link_under_cons (lower.close (upper.close inner))
      (upper.close (lower.close inner)) frame path
    exact hroot.trans (if_neg (Option.some_ne_none _)).symm

/-- Rotating back restores the linked tree, slot by slot. -/
theorem turned_turned : (linked.turned pivot).turned pivot.swap = linked := by
  have hback := h.turned.turned
  rw [Pivot.swap_swap] at hback
  have hswap : pivot.swap.ends.Perm pivot.ends := List.Perm.swap ..
  have hrelinked : linked.Relinked ((linked.turned pivot).turned pivot.swap) :=
    (rewiredAt_turned ..).toRelinked.trans (rewiredAt_turned ..).toRelinked
  refine Shows.unique hback.shows h.shows hrelinked fun id hid => ?_
  have hends : some id ∉ pivot.ends := fun hmem => hid (Pivot.mem_slots_of_mem_ends hmem)
  -- neither of the two rotations writes outside of the tree
  rw [(rewiredAt_turned ..).elsewhere id fun hmem => hends (hswap.mem_iff.1 hmem),
    (rewiredAt_turned ..).elsewhere id hends]

end Depicts

/-- At every node `x` of a linked tree that has a child `y` on the side opposite to `side`, the
rotation towards `side` lets the two change places, and leaves every node with a parent link to its
owner. All keys, values and colours stay in their slots and in their order, no links change but
those of `x`, of `y`, of the root of the subtree between them and of the former owner of `x`, for
which the root stands in if there is none, and rotating `y` back restores the linked tree. -/
theorem rotate_reversible (h : linked.Depicts tree) (hx : x ∈ tree.slots)
    (hnode : linked.arena.node? x = some node) (hchild : node.child side.opposite = some y) :
    ∃ (pivot : Pivot (Cell K V)) (child : Node K V) (after : LinkedTree K V),
      pivot.tree = tree ∧ pivot.upper.entry.slot = x ∧ pivot.lower.entry.slot = y ∧
      pivot.lower.side = side ∧ linked.arena.node? y = some child ∧
      rotate x side linked = .ok () after ∧
      after.Depicts pivot.swap.tree ∧
      pivot.swap.tree.toList = tree.toList ∧
      linked.RewiredAt after [some x, some y, child.child side, node.parent] ∧
      after.root = (if node.parent = none then some y else linked.root) ∧
      rotate y side.opposite after = .ok () linked := by
  obtain ⟨pivot, rfl, rfl, rfl, rfl⟩ := h.exists_pivot hx hnode hchild
  cases hnode.symm.trans h.node?_upper
  refine ⟨pivot, _, linked.turned pivot, rfl, rfl, rfl, rfl, h.node?_lower, h.rotate_eq_turned,
    h.turned, pivot.toList_swap, ?_, ?_, ?_⟩
  · rw [Frame.child_node, Frame.parent_node]
    exact rewiredAt_turned pivot linked
  · rw [Frame.parent_node]
    exact h.root_turned
  · have hback := h.turned.rotate_eq_turned
    rw [h.turned_turned] at hback
    rw [← pivot.side_eq]
    exact hback

/-- Four nodes in a zigzag and a vacant slot. Slot 1 hangs on the left of the root (slot 0), slot 2
on the right of slot 1, and slot 3 on the left of slot 2. -/
def zigzag : LinkedTree Nat Nat where
  arena :=
    { slots := #[.occupied ⟨50, 5, .red, none, some 1, none⟩,
        .occupied ⟨20, 2, .red, some 0, none, some 2⟩,
        .occupied ⟨40, 4, .black, some 1, some 3, none⟩,
        .occupied ⟨30, 3, .black, some 2, none, none⟩,
        .vacant none]
      lastVacated := some 4
      live := 4
      capacity := 8
      room := ⟨8, 24⟩ }
  root := some 0
  size := 4

/-- Moving slot 1 of the zigzag down to the left leaves slot 2 below the root, and takes slot 3 over
to slot 1. -/
theorem rotate_reversible_zigzag :
    let tree : Tree (Cell Nat Nat) :=
      .node .red (.node .red .nil ⟨1, 20, 2⟩
        (.node .black (.node .black .nil ⟨3, 30, 3⟩ .nil) ⟨2, 40, 4⟩ .nil)) ⟨0, 50, 5⟩ .nil
    let node : Node Nat Nat := ⟨20, 2, .red, some 0, none, some 2⟩
    zigzag.Depicts tree ∧ 1 ∈ tree.slots ∧ zigzag.arena.node? 1 = some node ∧
      node.child (Side.opposite .left) = some 2 ∧
      ∃ after new, rotate 1 .left zigzag = .ok () after ∧ after.Depicts new ∧
        new.toList = tree.toList ∧ after.root = some 0 ∧
        after.arena.node? 0 = some ⟨50, 5, .red, none, some 2, none⟩ ∧
        after.arena.node? 1 = some ⟨20, 2, .red, some 2, none, some 3⟩ ∧
        zigzag.RewiredAt after [some 1, some 2, some 3, some 0] ∧
        rotate 2 .right after = .ok () zigzag := by
  intro tree node
  have hdepicts : zigzag.Depicts tree :=
    ⟨⟨rfl, rfl, ⟨rfl, trivial, rfl, ⟨rfl, trivial, trivial⟩, trivial⟩, trivial⟩, by decide⟩
  have hslot : 1 ∈ tree.slots := by decide
  have hnode : zigzag.arena.node? 1 = some node := rfl
  have hchild : node.child (Side.opposite .left) = some 2 := rfl
  obtain ⟨pivot, child, after, -, -, -, -, hlower, hrotate, hnew, hlist, hrewired, hroot, hback⟩ :=
    rotate_reversible hdepicts hslot hnode hchild
  -- the inner subtree is read from the child, and the links from the run
  have hread : zigzag.arena.node? 2 = some ⟨40, 4, .black, some 1, some 3, none⟩ := rfl
  cases hlower.symm.trans hread
  obtain ⟨run, hrun, hzero, hone⟩ : ∃ run, rotate 1 .left zigzag = .ok () run ∧
      run.arena.node? 0 = some ⟨50, 5, .red, none, some 2, none⟩ ∧
      run.arena.node? 1 = some ⟨20, 2, .red, some 2, none, some 3⟩ := ⟨_, rfl, rfl, rfl⟩
  cases hrotate.symm.trans hrun
  exact ⟨hdepicts, hslot, hnode, hchild, after, _, hrun, hnew, hlist, hroot, hzero, hone, hrewired,
    hback⟩

end LinkedTree

end RedBlack
