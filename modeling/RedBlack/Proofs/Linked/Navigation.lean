import RedBlack.Linked.Navigation
import RedBlack.Proofs.Linked.Representation

/-!
# Walks through Linked Trees

What the walks find in a stored tree: the outermost node is the first one of the spine on
its side (`Arena.outermostWithin_eq`), the chain of left descendants is what the spine turns
left at (`Arena.leftChainWithin_eq`), and the shape of a linked tree is the tree it shows with
the slots forgotten (`Arena.treeWithin_eq`). None of them runs out of steps if there are as
many steps as nodes.
-/

namespace RedBlack

open RedBlack.Tree (Frame Path)

variable {K V : Type}

namespace Tree

/-- The tree without its slots. -/
def entries (tree : Tree (Cell K V)) : Tree (K × V) :=
  tree.map Cell.entry

theorem height_map {α β : Type} (f : α → β) (tree : Tree α) :
    (tree.map f).height = tree.height := by
  induction tree with
  | nil => rfl
  | node color left entry right ihl ihr => simp [map, height, ihl, ihr]

end Tree

namespace Arena

variable {arena : Arena K V} {tree : Tree (Cell K V)} {parent : Link} {id : SlotId} {steps : Nat}

theorem get_of_node? {node : Node K V} (h : arena.node? id = some node) :
    arena.get id = .ok node :=
  get_eq_ok_iff.2 h

/-- Without a child on its side, a node is the last one of the walk. -/
theorem outermostWithin_of_none (side : Side) {node : Node K V}
    (hnode : arena.node? id = some node) (hchild : node.child side = none) :
    arena.outermostWithin side (steps + 1) id = .ok id := by
  rw [outermostWithin, get_of_node? hnode]
  simp only [bind, Except.bind, hchild]
  rfl

/-- The walk goes on at the child on its side. -/
theorem outermostWithin_of_some (side : Side) {node : Node K V} {next : SlotId}
    (hnode : arena.node? id = some node) (hchild : node.child side = some next) :
    arena.outermostWithin side (steps + 1) id = arena.outermostWithin side steps next := by
  rw [outermostWithin, get_of_node? hnode]
  simp only [bind, Except.bind, hchild]

/-- The walk down one side ends at the lowest node of the spine. -/
theorem outermostWithin_eq {side : Side} {frame : Frame (Cell K V)} {path : Path (Cell K V)}
    (h : arena.Stores parent tree) (hlink : tree.link = some id)
    (hspine : tree.spine side [] = frame :: path) (hsteps : tree.size ≤ steps) :
    arena.outermostWithin side steps id = .ok frame.entry.slot := by
  induction tree generalizing parent id steps path with
  | nil => cases hlink
  | node color left cell right ihl ihr =>
    cases hlink
    obtain ⟨hnode, hleft, hright⟩ := h
    rw [Tree.size] at hsteps
    obtain ⟨steps, rfl⟩ : ∃ k, steps = k + 1 := Nat.exists_eq_succ_of_ne_zero (by omega)
    -- on either side: no child, or the rest of the spine lies in the child
    cases side with
    | left =>
      rcases Tree.of_spine_singleton_eq_cons hspine with ⟨rfl, rfl⟩ | ⟨rest, hrest⟩
      · exact outermostWithin_of_none .left hnode rfl
      · obtain ⟨next, hnext⟩ := Tree.exists_link_of_spine hrest
        refine (outermostWithin_of_some .left hnode hnext).trans ?_
        exact ihl hleft hnext hrest (by omega)
    | right =>
      rcases Tree.of_spine_singleton_eq_cons hspine with ⟨rfl, rfl⟩ | ⟨rest, hrest⟩
      · exact outermostWithin_of_none .right hnode rfl
      · obtain ⟨next, hnext⟩ := Tree.exists_link_of_spine hrest
        refine (outermostWithin_of_some .right hnode hnext).trans ?_
        exact ihr hright hnext hrest (by omega)

/-- The walk down the left side pushes the nodes at which the spine turns left. -/
theorem leftChainWithin_eq (h : arena.Stores parent tree) (path : Path (Cell K V))
    (hsteps : tree.size ≤ steps) :
    arena.leftChainWithin steps tree.link ((Path.turns path).map Cell.slot) =
      .ok ((Path.turns (tree.spine .left path)).map Cell.slot) := by
  induction tree generalizing parent path steps with
  | nil =>
    cases steps <;> rfl
  | node color left cell right ihl ihr =>
    obtain ⟨hnode, hleft, -⟩ := h
    rw [Tree.size] at hsteps
    obtain ⟨steps, rfl⟩ : ∃ k, steps = k + 1 := Nat.exists_eq_succ_of_ne_zero (by omega)
    rw [Tree.link, leftChainWithin, get_of_node? hnode]
    exact ihl hleft (⟨.left, color, cell, right⟩ :: path) (by omega)

/-- The shape of a stored tree is the tree without its slots. -/
theorem treeWithin_eq (h : arena.Stores parent tree) (hsteps : tree.size ≤ steps) :
    arena.treeWithin steps tree.link = .ok tree.entries := by
  induction tree generalizing parent steps with
  | nil => cases steps <;> rfl
  | node color left cell right ihl ihr =>
    obtain ⟨hnode, hleft, hright⟩ := h
    rw [Tree.size] at hsteps
    obtain ⟨steps, rfl⟩ : ∃ k, steps = k + 1 := Nat.exists_eq_succ_of_ne_zero (by omega)
    have hl : arena.treeWithin steps left.link = .ok left.entries := ihl hleft (by omega)
    have hr : arena.treeWithin steps right.link = .ok right.entries := ihr hright (by omega)
    rw [Tree.link, treeWithin, get_of_node? hnode]
    change (arena.treeWithin steps left.link >>= fun l =>
      arena.treeWithin steps right.link >>= fun r => _) = _
    rw [hl]
    change (arena.treeWithin steps right.link >>= fun r => _) = _
    rw [hr]
    rfl

end Arena

end RedBlack
