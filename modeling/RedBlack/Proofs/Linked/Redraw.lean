import Mathlib.Data.List.Perm.Subperm
import RedBlack.Linked.Removal
import RedBlack.Proofs.Linked.Rotation

/-!
# Rules for Relinking Actions

The repairs of a linked tree read nodes, paint them and relink them. A rule
`Redraws action tree new answer` says what such an action does in terms of the tree that is
shown: on every linked tree that depicts `tree` it gives `answer` and leaves a linked tree
that depicts `new`, with nothing but links and colours changed. Rules are composed with
`Redraws.bind`; the repairs are then followed on trees and paths alone.

The rules in this module:

* reading — `Redraws.node`, `Redraws.getRoot`, `Redraws.isRed`, `Redraws.ifRed`,
  `Redraws.ifRed_owner`, `Redraws.childSide`;
* writing — `Redraws.paint`, `Redraws.rotate`, `Redraws.substitute`.
-/

namespace RedBlack

namespace LinkedTree

open RedBlack.Tree (Frame Path join)

variable {K V α β : Type}

/-- The links form a tree in which no slot occurs twice. -/
structure Depicts (linked : LinkedTree K V) (tree : Tree (Cell K V)) : Prop where
  /-- The links from the root form the tree. -/
  shows : linked.Shows tree
  /-- No slot occurs twice. -/
  nodup : tree.slots.Nodup

/-- The action gives `answer` on every linked tree that depicts `tree`, and leaves one that
depicts `new`; nothing but links and colours changes. -/
def Redraws (action : LinkM K V α) (tree new : Tree (Cell K V)) (answer : α) : Prop :=
  ∀ linked, linked.Depicts tree →
    ∃ after, action linked = .ok answer after ∧ after.Depicts new ∧ linked.Relinked after

variable {linked : LinkedTree K V} {tree new mid : Tree (Cell K V)} {frame : Frame (Cell K V)}
  {path : Path (Cell K V)} {id : SlotId} {link : Link} {color : Color}

/-- Every slot of a depicted tree is in bounds, so the slots are at least as many as the
nodes. -/
theorem Depicts.size_le (h : linked.Depicts tree) : tree.size ≤ linked.arena.slots.size := by
  have hsubset : tree.slots ⊆ List.range linked.arena.slots.size := by
    intro id hid
    obtain ⟨node, hnode⟩ := h.shows.2.exists_node_of_mem hid
    exact List.mem_range.2 (Arena.lt_size_of_node? hnode)
  -- pairwise distinct slots in bounds are no more than the slots
  have hlength := (List.subperm_of_subset h.nodup hsubset).length_le
  rwa [Tree.length_slots, List.length_range] at hlength

/-- A tree with the same entries in the same order holds no slot twice either. -/
theorem Depicts.of_toList_eq {after : LinkedTree K V} (h : linked.Depicts tree)
    (hshows : after.Shows new) (hlist : new.toList = tree.toList) : after.Depicts new := by
  refine ⟨hshows, ?_⟩
  rw [Tree.slots, hlist]
  exact h.nodup

namespace Redraws

theorem pure (answer : α) (tree : Tree (Cell K V)) :
    Redraws (Pure.pure answer : LinkM K V α) tree tree answer :=
  fun linked h => ⟨linked, rfl, h, Relinked.refl linked⟩

/-- Actions are followed one after the other. -/
theorem bind {action : LinkM K V α} {next : α → LinkM K V β} {a : α} {b : β}
    (h : Redraws action tree mid a) (hnext : Redraws (next a) mid new b) :
    Redraws (action >>= next) tree new b := by
  intro linked hdepicts
  obtain ⟨between, heq, hbetween, hrelinked⟩ := h linked hdepicts
  obtain ⟨after, heq', hafter, hrelinked'⟩ := hnext between hbetween
  exact ⟨after, (bind_of_ok heq).trans heq', hafter, hrelinked.trans hrelinked'⟩

/-- A depicted tree may be assumed to hold no slot twice. -/
theorem of_nodup {action : LinkM K V α} {answer : α}
    (h : tree.slots.Nodup → Redraws action tree new answer) : Redraws action tree new answer :=
  fun linked hdepicts => h hdepicts.nodup linked hdepicts

/-- An action that answers a question leaves the tree as it is. -/
theorem of_eq_ok {action : LinkM K V α} {answer : α}
    (h : ∀ linked, linked.Depicts tree → action linked = .ok answer linked) :
    Redraws action tree tree answer :=
  fun linked hdepicts => ⟨linked, h linked hdepicts, hdepicts, Relinked.refl linked⟩

/-! ## Reading -/

/-- Reading the node of the lowest frame. -/
theorem node (frame : Frame (Cell K V)) (tree : Tree (Cell K V)) (path : Path (Cell K V)) :
    Redraws (LinkedTree.node frame.entry.slot) (tree.under (frame :: path))
      (tree.under (frame :: path)) (frame.node tree.link (Path.owner path)) := by
  refine of_eq_ok fun linked h => node_of_node? ?_
  obtain ⟨⟨hnode, -⟩, -⟩ := shows_under_iff.1 h.shows
  exact hnode

/-- Reading a sibling, which is the frame `nephew` around one of its children. -/
theorem node_sibling (nephew : Frame (Cell K V)) {inner : Tree (Cell K V)}
    (h : frame.sibling = nephew.close inner) (tree : Tree (Cell K V)) (path : Path (Cell K V)) :
    Redraws (LinkedTree.node nephew.entry.slot) (tree.under (frame :: path))
      (tree.under (frame :: path)) (nephew.node inner.link (some frame.entry.slot)) := by
  rw [← Tree.under_across, h]
  exact node nephew inner (frame.across tree :: path)

/-- Reading the root of the tree in a place. -/
theorem exists_node (hlink : tree.link = some id) (path : Path (Cell K V)) :
    ∃ stored : Node K V, stored.parent = Path.owner path ∧ stored.color = tree.color ∧
      Redraws (LinkedTree.node id) (tree.under path) (tree.under path) stored := by
  cases tree with
  | nil => cases hlink
  | node color left cell right =>
    cases hlink
    exact ⟨_, rfl, rfl, node ⟨.left, color, cell, right⟩ left path⟩

/-- The budget exceeds the number of nodes. -/
theorem budget {next : Nat → LinkM K V α} {answer : α}
    (h : ∀ steps, tree.size < steps → Redraws (next steps) tree new answer) :
    Redraws (LinkedTree.budget >>= next) tree new answer := by
  intro linked hdepicts
  have hbudget : LinkedTree.budget linked = .ok linked.arena.budget linked := rfl
  rw [bind_of_ok hbudget]
  exact h _ (Nat.lt_succ_of_le hdepicts.size_le) linked hdepicts

theorem getRoot (tree : Tree (Cell K V)) : Redraws LinkedTree.getRoot tree tree tree.link :=
  of_eq_ok fun linked h => congrArg (EStateM.Result.ok · linked) h.shows.1

/-- Following a link that is there. -/
theorem resolve (id : SlotId) (tree : Tree (Cell K V)) :
    Redraws (LinkedTree.resolve (some id)) tree tree id :=
  of_eq_ok fun _ _ => rfl

/-- The colour of the tree in a place. -/
theorem isRed (tree : Tree (Cell K V)) (path : Path (Cell K V)) :
    Redraws (LinkedTree.isRed tree.link) (tree.under path) (tree.under path)
      (tree.color == .red) := by
  cases tree with
  | nil => exact pure false _
  | node color left cell right =>
    refine bind (node ⟨.left, color, cell, right⟩ left path) ?_
    exact pure _ _

/-- The link to the tree in a place, if it is red. -/
theorem ifRed (tree : Tree (Cell K V)) (path : Path (Cell K V)) :
    Redraws (LinkedTree.ifRed tree.link) (tree.under path) (tree.under path)
      (if tree.color = .red then tree.link else none) := by
  refine bind (isRed tree path) ?_
  simp only [beq_iff_eq]
  exact pure _ _

/-- The link to the owner of a place, if it is red. -/
theorem ifRed_owner (frame : Frame (Cell K V)) (tree : Tree (Cell K V))
    (path : Path (Cell K V)) :
    Redraws (LinkedTree.ifRed (Path.owner (frame :: path))) (tree.under (frame :: path))
      (tree.under (frame :: path))
      (if frame.color = .red then some frame.entry.slot else none) := by
  have h := ifRed (frame.close tree) path
  rwa [Frame.link_close, Frame.close, Tree.color_join] at h

/-- The colour of a sibling. -/
theorem isRed_sibling (frame : Frame (Cell K V)) (tree : Tree (Cell K V))
    (path : Path (Cell K V)) :
    Redraws (LinkedTree.isRed frame.sibling.link) (tree.under (frame :: path))
      (tree.under (frame :: path)) (frame.sibling.color == .red) := by
  rw [← Tree.under_across]
  exact isRed frame.sibling (frame.across tree :: path)

/-- The link to a sibling, if it is red. -/
theorem ifRed_sibling (frame : Frame (Cell K V)) (tree : Tree (Cell K V))
    (path : Path (Cell K V)) :
    Redraws (LinkedTree.ifRed frame.sibling.link) (tree.under (frame :: path))
      (tree.under (frame :: path))
      (if frame.sibling.color = .red then frame.sibling.link else none) := by
  rw [← Tree.under_across]
  exact ifRed frame.sibling (frame.across tree :: path)

/-- The side from which a place hangs, unless nothing hangs from either side. -/
theorem childSide (frame : Frame (Cell K V)) (tree : Tree (Cell K V)) (path : Path (Cell K V))
    (hsome : tree.link = none → frame.sibling.link ≠ none) :
    Redraws (LinkedTree.childSide tree.link frame.entry.slot) (tree.under (frame :: path))
      (tree.under (frame :: path)) frame.side := by
  refine of_eq_ok fun linked h => childSide_eq (shows_under_iff.1 h.shows).1 fun heq => ?_
  obtain ⟨hclose, -⟩ := Tree.nodup_slots_under.1 (Tree.under_cons tree frame path ▸ h.nodup)
  obtain ⟨-, -, -, -, hdisjoint⟩ := Tree.nodup_slots_close.1 hclose
  -- two equal links would lead to the same node, but the two subtrees share none
  cases hlink : tree.link with
  | none => exact hsome hlink (heq.trans hlink)
  | some id =>
    exact hdisjoint (Tree.mem_slots_of_link (heq.trans hlink)) (Tree.mem_slots_of_link hlink)

/-! ## Writing -/

/-- Painting the root of the tree in a place. -/
theorem paint (hlink : tree.link = some id) (color : Color) (path : Path (Cell K V)) :
    Redraws (LinkedTree.paint id color) (tree.under path) ((tree.paint color).under path) () := by
  intro linked h
  cases tree with
  | nil => cases hlink
  | node old left cell right =>
    cases hlink
    obtain ⟨hpath, hnode, hleft, hright⟩ := shows_under_iff.1 h.shows
    obtain ⟨hnodup, -, hdisjoint⟩ := Tree.nodup_slots_under.1 h.nodup
    have hclose : (Frame.close ⟨.left, old, cell, right⟩ left).slots.Nodup := hnodup
    obtain ⟨hright', hleft', -⟩ := Tree.nodup_slots_close.1 hclose
    have hpath' : cell.slot ∉ Path.slots path := hdisjoint (Tree.mem_slots_of_link rfl)
    -- painting is a single write, outside of the path and of both subtrees
    refine ⟨_, modifyNode_eq hnode, h.of_toList_eq ?_ ?_, Relinked.alter _ _ fun _ => rfl⟩
    · refine shows_under_iff.2 ⟨hpath.alter (some_ne_of_notMem hpath'), ?_,
        hleft.alter (some_ne_of_notMem hleft'), hright.alter (some_ne_of_notMem hright')⟩
      rw [node?_alter, if_pos rfl, hnode]
      rfl
    · exact Tree.toList_under_congr (Tree.toList_paint color (.node old left cell right)) path

theorem paint_frame (color : Color) (frame : Frame (Cell K V)) (tree : Tree (Cell K V))
    (path : Path (Cell K V)) :
    Redraws (LinkedTree.paint frame.entry.slot color) (tree.under (frame :: path))
      (tree.under ({ frame with color } :: path)) () := by
  have h := paint (Frame.link_close frame tree) color path
  rwa [Frame.paint_close] at h

theorem paint_sibling (frame : Frame (Cell K V)) (hlink : frame.sibling.link = some id)
    (color : Color) (tree : Tree (Cell K V)) (path : Path (Cell K V)) :
    Redraws (LinkedTree.paint id color) (tree.under (frame :: path))
      (tree.under ({ frame with sibling := frame.sibling.paint color } :: path)) () := by
  rw [← Tree.under_across tree frame,
    ← Tree.under_across tree { frame with sibling := frame.sibling.paint color }]
  exact paint hlink color (frame.across tree :: path)

/-- Rotating a node lifts its far child into its place. -/
theorem rotate (side : Side) (c d : Color) (x y : Cell K V) (near inner far : Tree (Cell K V))
    (path : Path (Cell K V)) :
    Redraws (LinkedTree.rotate x.slot side)
      ((join side c near x (join side d inner y far)).under path)
      ((join side d (join side c near x inner) y far).under path) () := by
  intro linked h
  obtain ⟨after, heq, hshows, hrelinked⟩ := rotate_eq_ok h.shows h.nodup
  refine ⟨after, heq, h.of_toList_eq hshows ?_, hrelinked⟩
  exact Tree.toList_under_congr (Tree.toList_rotate side).symm path

/-- Putting the only subtree of a node into its place. -/
theorem substitute (frame : Frame (Cell K V)) (path : Path (Cell K V)) :
    Redraws (LinkedTree.substitute frame.entry.slot frame.sibling.link)
      (Tree.nil.under (frame :: path)) (frame.sibling.under path) () := by
  intro linked h
  obtain ⟨⟨hnode, hsibling, hpath⟩, -⟩ := shows_under_iff.1 h.shows
  obtain ⟨hclose, hpathnodup, hdisjoint⟩ := Tree.nodup_slots_under.1
    (Tree.under_cons Tree.nil frame path ▸ h.nodup)
  obtain ⟨hself, -, hnodup, -, -⟩ := Tree.nodup_slots_close.1 hclose
  have hselfpath : frame.entry.slot ∉ Path.slots path :=
    hdisjoint (Tree.mem_slots_of_link (Frame.link_close frame .nil))
  have hsiblingpath : frame.sibling.slots.Disjoint (Path.slots path) :=
    fun _ hid => hdisjoint (Tree.mem_slots_close.2 (.inr (.inl hid)))
  -- the removed node is not on the path, so the sibling of the place differs from it
  have hrelink := relink_eq hpath (sibling_link_ne hselfpath) (live_link hsibling)
  have hparent : LinkedTree.substitute frame.entry.slot frame.sibling.link linked =
      relink (Path.owner path) (some frame.entry.slot) frame.sibling.link linked := by
    rw [LinkedTree.substitute, bind_of_ok (node_of_node? hnode), Frame.parent_node]
  refine ⟨_, hparent.trans hrelink, ⟨?_, ?_⟩, ?_⟩
  · refine shows_under_iff.2 ⟨(hpath.attach hpathnodup).alter (link_ne_of_disjoint hsiblingpath),
      (stores_attach hsibling (owner_ne_of_disjoint hsiblingpath)).adopt hnodup⟩
  · exact Tree.nodup_slots_under.2 ⟨hnodup, hpathnodup, hsiblingpath⟩
  · exact (Relinked.attach _ _ _).trans (Relinked.alter _ _ fun node => node.entry_withParent _)

end Redraws

end LinkedTree

end RedBlack
