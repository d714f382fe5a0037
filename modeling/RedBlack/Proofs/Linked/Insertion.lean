import RedBlack.Linked.Insertion
import RedBlack.Proofs.Linked.Redraw
import RedBlack.Proofs.Tree.Repair

/-!
# Insertion into Linked Trees

The repair of a red node under a red parent, as it is done on links, is the repair of the
tree that the links form (`Redraws.repairRed`): it ends within its steps, meets no missing
link, and reports the same events.
-/

namespace RedBlack

namespace LinkedTree

open RedBlack.Tree (Frame Path join)

variable {K V : Type} {tree low : Tree (Cell K V)} {parent grand : Frame (Cell K V)}
  {path : Path (Cell K V)} {z : SlotId}

namespace Redraws

/-- Recolouring a red parent, a red uncle and the grandparent. -/
theorem recolor {uncle : SlotId} (huncle : grand.sibling.link = some uncle) :
    Redraws (LinkedTree.recolor parent.entry.slot uncle grand.entry.slot)
      (tree.under (parent :: grand :: path))
      (tree.under ({ parent with color := .black } ::
        { grand with color := .red, sibling := grand.sibling.paint .black } :: path)) () := by
  refine .bind (.paint_frame .black parent tree (grand :: path)) ?_
  let below : Tree (Cell K V) := Frame.close { parent with color := .black } tree
  refine .bind (.paint_sibling grand huncle .black below path) ?_
  exact .paint_frame .red { grand with sibling := grand.sibling.paint .black } _ path

/-- Rotating the grandparent away from an outer red node. -/
theorem rotateGrandparent (hlink : low.link = some z) {color : Color} {entry : Cell K V}
    {rest : Tree (Cell K V)} :
    Redraws (LinkedTree.rotateGrandparent z grand.side)
      ((join grand.side color low entry rest).under (grand :: path))
      ((join grand.side .black low entry
        (join grand.side .red rest grand.entry grand.sibling)).under path) () := by
  let parent : Frame (Cell K V) := ⟨grand.side, color, entry, rest⟩
  obtain ⟨stored, hparent, -, hread⟩ := exists_node hlink (parent :: grand :: path)
  refine .bind hread ?_
  rw [hparent]
  refine .bind (.resolve entry.slot _) ?_
  refine .bind (.node parent low (grand :: path)) ?_
  rw [Frame.parent_node]
  refine .bind (.resolve grand.entry.slot _) ?_
  refine .bind (.paint_frame .black parent low (grand :: path)) ?_
  refine .bind (.paint_frame .red grand (Frame.close { parent with color := .black } low) path) ?_
  -- from the far side of the grandparent, its parent is the child to lift
  have h := rotate grand.side.opposite .red .black grand.entry entry grand.sibling rest low path
  rwa [Tree.join_opposite, Tree.join_opposite, Tree.join_opposite, Tree.join_opposite] at h

/-- Straightening leaves a red node on the outside of its red parent, as it is before the
grandparent is rotated. -/
theorem straighten (hlink : tree.link = some z) (hred : parent.color = .red)
    (grand : Frame (Cell K V)) (path : Path (Cell K V)) :
    ∃ low rest entry color lower events, low.link = some lower ∧
      Redraws (LinkedTree.straighten z parent.entry.slot grand.side)
        (tree.under (parent :: grand :: path))
        ((join grand.side color low entry rest).under (grand :: path)) (lower, events) ∧
      tree.rotateGrand parent grand =
        (join grand.side .black low entry (join grand.side .red rest grand.entry grand.sibling),
          events ++ [.grandparentRotated]) := by
  by_cases hside : parent.side = grand.side
  · refine ⟨tree, parent.sibling, parent.entry, parent.color, z, [], hlink, ?_, ?_⟩
    · refine .of_nodup fun hnodup => .bind (.node parent tree (grand :: path)) ?_
      -- the node hangs on the outside, so it is not the inner child
      have hne : (parent.node tree.link (Path.owner (grand :: path))).child grand.side.opposite ≠
          some z := by
        rw [← hside, Frame.child_opposite_node]
        intro hsibling
        obtain ⟨hclose, -⟩ := Tree.nodup_slots_under.1 (Tree.under_cons tree parent _ ▸ hnodup)
        obtain ⟨-, -, -, -, hdisjoint⟩ := Tree.nodup_slots_close.1 hclose
        exact hdisjoint (Tree.mem_slots_of_link hsibling) (Tree.mem_slots_of_link hlink)
      rw [if_neg hne, ← hside]
      exact .pure _ _
    · rw [Tree.rotateGrand, if_pos hside]
      rfl
  · have hopposite : parent.side = grand.side.opposite := Side.eq_opposite_of_ne hside
    cases hfacing : tree.facing grand.side with
    | nil =>
      rw [Tree.eq_nil_of_facing hfacing] at hlink
      cases hlink
    | node color near entry far =>
      refine ⟨join grand.side parent.color parent.sibling parent.entry near, far, entry, color,
        parent.entry.slot, [.straightened], ?_, ?_, ?_⟩
      · exact Frame.link_close ⟨grand.side, parent.color, parent.entry, near⟩ parent.sibling
      · refine .bind (.node parent tree (grand :: path)) ?_
        -- the node hangs on the inside and is rotated above its parent
        have hchild : (parent.node tree.link (Path.owner (grand :: path))).child
            grand.side.opposite = some z := by
          rw [← hopposite, Frame.child_node, hlink]
        rw [if_pos hchild, Tree.under_cons, Frame.close, hopposite, Tree.join_opposite,
          Tree.eq_join_of_facing hfacing]
        have hrotate := rotate grand.side parent.color color parent.entry entry parent.sibling near
          far (grand :: path)
        exact .bind hrotate (.pure _ _)
      · rw [Tree.rotateGrand, if_neg hside, hfacing, hred]
        rfl

/-- A red node without a red parent ends the repair. -/
theorem repairRedWithin_of_black (hlink : tree.link = some z)
    (hblack : ∀ frame ∈ path.head?, frame.color ≠ .red) (steps : Nat) :
    Redraws (LinkedTree.repairRedWithin (steps + 1) z) (tree.under path) (tree.under path) [] := by
  obtain ⟨stored, hparent, -, hread⟩ := exists_node hlink path
  refine .bind hread ?_
  rw [hparent]
  cases path with
  | nil => exact .bind (.pure none _) (.pure _ _)
  | cons frame path =>
    refine .bind (.ifRed_owner frame tree path) ?_
    rw [if_neg (hblack frame rfl)]
    exact .pure _ _

/-- Under a red parent, the repair goes on with the colour of the uncle. -/
theorem repairRedWithin_of_red {steps : Nat} {new : Tree (Cell K V)} {answer : List Event}
    (hlink : tree.link = some z) (hred : parent.color = .red)
    (h : Redraws
      (match if grand.sibling.color = .red then grand.sibling.link else none with
      | some uncle => do
        LinkedTree.recolor parent.entry.slot uncle grand.entry.slot
        return .recolored :: (← LinkedTree.repairRedWithin steps grand.entry.slot)
      | none => do
        let (z, events) ← LinkedTree.straighten z parent.entry.slot grand.side
        LinkedTree.rotateGrandparent z grand.side
        return events ++ .grandparentRotated :: (← LinkedTree.repairRedWithin steps z))
      (tree.under (parent :: grand :: path)) new answer) :
    Redraws (LinkedTree.repairRedWithin (steps + 1) z) (tree.under (parent :: grand :: path))
      new answer := by
  obtain ⟨stored, hparent, -, hread⟩ := exists_node hlink (parent :: grand :: path)
  refine .bind hread ?_
  rw [hparent]
  refine .bind (.ifRed_owner parent tree (grand :: path)) ?_
  rw [if_pos hred]
  refine .bind (.node parent tree (grand :: path)) ?_
  rw [Frame.parent_node]
  refine .bind (.resolve grand.entry.slot _) ?_
  -- the side of the parent tells the uncle, which is read from the grandparent
  have hside := childSide grand (parent.close tree) path
  rw [Frame.link_close] at hside
  refine .bind (hside fun hnone => by cases hnone) ?_
  refine .bind (.node grand (parent.close tree) path) ?_
  rw [Frame.child_opposite_node]
  exact .bind (.ifRed_sibling grand (parent.close tree) path) h

/-- Moving a red node up on links moves it up in the tree. The steps suffice if they are more
than the frames above the node, and a red parent always has a parent if the root is black. -/
theorem repairRedWithin {steps : Nat} (hlink : tree.link = some z) (hsteps : path.length < steps)
    (hroot : ∀ frame ∈ path.getLast?, frame.color ≠ .red) :
    Redraws (LinkedTree.repairRedWithin steps z) (tree.under path) (tree.settleRed path).1
      (tree.settleRed path).2 := by
  obtain ⟨steps, rfl⟩ : ∃ k, steps = k + 1 := Nat.exists_eq_succ_of_ne_zero (by omega)
  fun_induction Tree.settleRed tree path generalizing steps z with
  | case1 tree parent grand path hred huncle settled events heq ih =>
    rw [heq] at ih
    obtain ⟨uncle, hlinkuncle⟩ := Tree.exists_link_of_red huncle
    refine repairRedWithin_of_red hlink hred ?_
    rw [if_pos huncle, hlinkuncle]
    refine .bind (.recolor hlinkuncle) ?_
    simp only [List.length_cons] at hsteps
    obtain ⟨steps, rfl⟩ : ∃ k, steps = k + 1 := Nat.exists_eq_succ_of_ne_zero (by omega)
    -- the repair goes on two frames further up, where the last frame is the same
    have hroot' : ∀ frame ∈ path.getLast?, frame.color ≠ .red := fun frame hframe =>
      hroot frame (List.mem_getLast?_cons (List.mem_getLast?_cons hframe))
    exact .bind (ih (Frame.link_close _ _) hroot' steps (by omega)) (.pure _ _)
  | case2 tree parent grand path hred huncle rotated events heq =>
    obtain ⟨low, rest, entry, color, lower, first, hlow, hstraighten, hrotated⟩ :=
      straighten hlink hred grand path
    cases hrotated.symm.trans heq
    refine repairRedWithin_of_red hlink hred ?_
    rw [if_neg huncle]
    refine .bind hstraighten ?_
    refine .bind (.rotateGrandparent hlow) ?_
    simp only [List.length_cons] at hsteps
    obtain ⟨steps, rfl⟩ : ∃ k, steps = k + 1 := Nat.exists_eq_succ_of_ne_zero (by omega)
    -- the lower red node now hangs from a black parent
    let upper : Frame (Cell K V) :=
      ⟨grand.side, .black, entry, join grand.side .red rest grand.entry grand.sibling⟩
    have hupper : ∀ frame ∈ (upper :: path).head?, frame.color ≠ .red := by
      rintro _ ⟨⟩ hred
      cases hred
    exact .bind (repairRedWithin_of_black hlow hupper steps) (.pure _ _)
  | case3 tree parent grand path hblack =>
    refine repairRedWithin_of_black hlink ?_ steps
    rintro frame ⟨⟩
    exact hblack
  -- fewer than two frames: the only one, if any, is the root
  | case4 tree path hshort =>
    refine repairRedWithin_of_black hlink ?_ steps
    intro frame hframe
    cases path with
    | nil => cases hframe
    | cons parent path =>
      cases path with
      | nil => exact hroot frame hframe
      | cons grand path => exact (hshort parent grand path rfl).elim

/-- Colouring the root black. -/
theorem blackenRoot {root : SlotId} (hlink : tree.link = some root) :
    Redraws LinkedTree.blackenRoot tree (tree.paint .black) () := by
  refine .bind (.getRoot tree) ?_
  rw [hlink]
  exact .bind (.resolve root tree) (.paint hlink .black [])

/-- Repairing a red node on links repairs the tree. -/
theorem repairRed (hlink : tree.link = some z)
    (hroot : ∀ frame ∈ path.getLast?, frame.color ≠ .red) :
    Redraws (LinkedTree.repairRed z) (tree.under path) (tree.repairRed path).1
      (tree.repairRed path).2 := by
  refine .budget fun steps hsteps => ?_
  have hlength := Tree.length_add_size_le tree path
  refine .bind (.repairRedWithin hlink (by omega) hroot) ?_
  -- a tree with a red node is not empty, so there is a root to colour
  have hentries : (tree.settleRed path).1.toList ≠ [] := by
    obtain ⟨cell, hcell, -⟩ := List.mem_map.1 (Tree.mem_slots_of_link hlink)
    rw [Tree.toList_settleRed, Tree.toList_under]
    exact List.ne_nil_of_mem (List.mem_append_left _ (List.mem_append_right _ hcell))
  obtain ⟨root, hsettled⟩ := Tree.exists_link_of_toList_ne_nil hentries
  exact .bind (.blackenRoot hsettled) (.pure _ _)

end Redraws

end LinkedTree

end RedBlack
