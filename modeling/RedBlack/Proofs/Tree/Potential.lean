import RedBlack.Proofs.Tree.Balance
import RedBlack.Proofs.Tree.Mapping

/-!
# Potential

What a repair may still have to do, read off the colours. Two kinds of steps can occur many
times in one repair, since they only move the violation towards the root: the recolouring under
a red uncle and the pushing up of a shortage. `Event.ascents` counts them.

A black node has a weight of one without red children, of none with one red child, and of two
with two; a red node has no weight (`Tree.weight`). The potential of a tree is the sum of the
weights of its nodes. An ascent takes one unit of it away, and all other changes add little:

* settling a red node costs at most two units (`ascents_settleRed_add_potential_le`), so
  storing an entry does as well (`ascents_repairRed_leaf_add_potential_le`);
* settling a shortage costs at most two units, and none below a red root
  (`ascents_settleShort_add_potential_le`), so erasing a node costs at most one
  (`ascents_erase_add_potential_le`).
-/

namespace RedBlack

namespace Event

/-- The number of steps that moved a violation towards the root. -/
def ascents (events : List Event) : Nat :=
  events.count .recolored + events.count .deficiencyPushed

@[simp]
theorem ascents_nil : ascents [] = 0 := rfl

@[simp]
theorem ascents_append (events others : List Event) :
    ascents (events ++ others) = ascents events + ascents others := by
  rw [ascents, ascents, ascents, List.count_append, List.count_append]
  omega

@[simp]
theorem ascents_recolored (events : List Event) :
    ascents (.recolored :: events) = ascents events + 1 := by
  rw [ascents, ascents, List.count_cons_self, List.count_cons_of_ne (by decide)]
  omega

@[simp]
theorem ascents_deficiencyPushed (events : List Event) :
    ascents (.deficiencyPushed :: events) = ascents events + 1 := by
  rw [ascents, ascents, List.count_cons_self, List.count_cons_of_ne (by decide)]
  omega

/-- Rotating a sibling away is not repeated. -/
@[simp]
theorem ascents_siblingRotated (events : List Event) :
    ascents (.siblingRotated :: events) = ascents events := by
  rw [ascents, ascents, List.count_cons_of_ne (by decide), List.count_cons_of_ne (by decide)]

end Event

namespace Tree

open Event

variable {α β : Type}

/-! ## Weights -/

/-- The weight of a node of a colour with two children of given colours. -/
def weight : Color → Color → Color → Nat
  | .red, _, _ => 0
  | .black, .black, .black => 1
  | .black, .red, .red => 2
  | .black, _, _ => 0

theorem weight_comm (color near far : Color) : weight color near far = weight color far near := by
  cases color <;> cases near <;> cases far <;> rfl

theorem weight_le_black_add (color near far : Color) :
    weight color near far ≤ weight color .black far + 2 := by
  cases color <;> cases near <;> cases far <;> decide

theorem weight_le_red_add (color near far : Color) :
    weight color near far ≤ weight color .red far + 1 := by
  cases color <;> cases near <;> cases far <;> decide

/-- The sum of the weights of all nodes. -/
def potential : Tree α → Nat
  | nil => 0
  | node color left _ right =>
    weight color left.color right.color + left.potential + right.potential

/-- The weights of the nodes on a path, with a tree of a colour in the place at its end, and of
those beside it. -/
def Path.potential : Path α → Color → Nat
  | [], _ => 0
  | frame :: path, below =>
    weight frame.color below frame.sibling.color + frame.sibling.potential +
      Path.potential path frame.color

theorem potential_join (side : Side) (color : Color) (near : Tree α) (entry : α) (far : Tree α) :
    (join side color near entry far).potential =
      weight color near.color far.color + near.potential + far.potential := by
  cases side with
  | left => rfl
  | right =>
    rw [join, potential, weight_comm]
    omega

theorem potential_close (frame : Frame α) (tree : Tree α) :
    (frame.close tree).potential = weight frame.color tree.color frame.sibling.color +
      tree.potential + frame.sibling.potential :=
  potential_join ..

/-- The potential is that of the tree in a place and that of the path to it. -/
theorem potential_under (tree : Tree α) (path : Path α) :
    (tree.under path).potential = tree.potential + Path.potential path tree.color := by
  induction path generalizing tree with
  | nil => rfl
  | cons frame path ih =>
    rw [under_cons, ih, potential_close, Frame.color_close, Path.potential]
    omega

/-- Entries have no weight. -/
theorem potential_map (f : α → β) (tree : Tree α) : (tree.map f).potential = tree.potential := by
  induction tree with
  | nil => rfl
  | node color left entry right ihl ihr =>
    rw [map, potential, potential, color_map, color_map, ihl, ihr]

theorem Alike.potential_eq {tree : Tree α} {other : Tree β} (h : tree.Alike other) :
    tree.potential = other.potential := by
  rw [← potential_map (fun _ => ()) tree, h, potential_map]

/-- A red node in a place where a black one was adds at most two units above. -/
theorem Path.potential_le_black_add (path : Path α) (color : Color) :
    Path.potential path color ≤ Path.potential path .black + 2 := by
  cases path with
  | nil => exact Nat.zero_le _
  | cons frame path =>
    have h := weight_le_black_add frame.color color frame.sibling.color
    rw [Path.potential, Path.potential]
    omega

/-- A black node in a place where a red one was adds at most one unit above. -/
theorem Path.potential_le_red_add (path : Path α) (color : Color) :
    Path.potential path color ≤ Path.potential path .red + 1 := by
  cases path with
  | nil => exact Nat.zero_le _
  | cons frame path =>
    have h := weight_le_red_add frame.color color frame.sibling.color
    rw [Path.potential, Path.potential]
    omega

/-- A red node with black children that turns black weighs one unit. -/
theorem Balanced.potential_paint_black {tree : Tree α} {n : Nat} (h : Balanced tree .red n) :
    (tree.paint .black).potential = tree.potential + 1 := by
  cases h with
  | red hleft hright =>
    rw [paint, potential, potential, hleft.color_eq, hright.color_eq]
    simp only [weight]
    omega

/-! ## Red nodes under red parents -/

/-- Sharing the black of the grandparent with a red uncle takes a unit away, but for the uncle's
own weight. -/
theorem potential_recolor {tree : Tree α} {parent grand : Frame α} {n : Nat}
    (htree : tree.color = .red) (hparent : parent.sibling.color = .black)
    (hgrand : Balanced grand.sibling .red n) :
    ({ grand with color := .red, sibling := grand.sibling.paint .black : Frame α }.close
      ({ parent with color := .black : Frame α }.close tree)).potential =
      tree.potential + parent.sibling.potential + grand.sibling.potential + 1 := by
  simp only [Frame.close, potential_join, htree, hparent, hgrand.potential_paint_black, weight]
  omega

/-- A rotation at the grandparent leaves a black node with two red children. -/
theorem potential_rotateGrand {tree : Tree α} {n : Nat} (htree : Balanced tree .red n)
    (parent grand : Frame α) :
    (tree.rotateGrand parent grand).1.potential =
      tree.potential + parent.sibling.potential + grand.sibling.potential + 2 := by
  unfold rotateGrand
  split
  · simp only [potential_join, color_join, htree.color_eq, weight]
    omega
  · obtain ⟨near, entry, far, hfacing⟩ := htree.exists_facing_of_red grand.side
    have hnode := eq_join_of_facing hfacing
    rw [hfacing]
    simp only [hnode, potential_join, color_join, weight]
    omega

/-- A red node that is accepted where it is costs at most two units above. -/
theorem Balanced.potential_paint_under_le {tree : Tree α} {path : Path α} {n m : Nat}
    (h : Balanced (tree.under path) .black m) (htree : Balanced tree .red n) :
    ((tree.under path).paint .black).potential ≤
      tree.potential + Path.potential path .black + 2 := by
  have hpath := Path.potential_le_black_add path .red
  rw [paint_eq_self h.color_eq, potential_under, htree.color_eq]
  omega

theorem ascents_rotateGrand (tree : Tree α) (parent grand : Frame α) :
    ascents (tree.rotateGrand parent grand).2 = 0 := by
  unfold rotateGrand
  split
  · rfl
  · split <;> rfl

/-- Settling a red node where a black one is accepted costs at most two units, once the root is
black. -/
theorem ascents_settleRed_add_potential_le {tree : Tree α} {path : Path α} {n m : Nat}
    (hpath : Accepts path .black n m) (htree : Balanced tree .red n) :
    ascents (tree.settleRed path).2 + ((tree.settleRed path).1.paint .black).potential ≤
      tree.potential + Path.potential path .black + 2 := by
  fun_induction settleRed tree path generalizing n with
  | case1 tree parent grand path hred huncle settled events heq ih =>
    rw [heq] at ih
    cases hpath with
    | black hcolor => rw [hcolor] at hred; cases hred
    | red _ hparent hgrand =>
      cases hgrand with
      | @black _ _ _ d _ _ hcolor hsibling hpath =>
        cases hsibling.color_eq.symm.trans huncle
        have hrest :=
          ih hpath (.join_red (.join_black htree hparent) hsibling.paint_black_of_red)
        rw [potential_recolor htree.color_eq hparent.color_eq hsibling] at hrest
        -- the grandparent had two red children
        simp only [Path.potential, hred, hcolor, hsibling.color_eq, weight, ascents_recolored]
        simp only at hrest
        omega
  | case2 tree parent grand path hred huncle rotated events heq =>
    cases hpath with
    | black hcolor => rw [hcolor] at hred; cases hred
    | red _ hparent hgrand =>
      cases hgrand with
      | @black _ _ _ d _ _ hcolor hsibling hpath =>
        have hd := hsibling.color_eq ▸ huncle
        have hrotated := balanced_rotateGrand htree hparent hsibling hd
        have hpotential := potential_rotateGrand htree parent grand
        have hevents := ascents_rotateGrand tree parent grand
        rw [heq] at hrotated hpotential hevents
        simp only at hpotential hevents
        rw [paint_eq_self (hpath.balanced_under hrotated).color_eq, potential_under,
          hrotated.color_eq, hpotential, hevents]
        simp only [Path.potential, hcolor]
        omega
  | case3 tree parent grand path hblack =>
    cases hpath with
    | red hcolor => exact absurd hcolor hblack
    | black hcolor hsibling hpath =>
      have hunder := (Accepts.black hcolor hsibling hpath).balanced_under htree
      rw [ascents_nil, Nat.zero_add]
      exact hunder.potential_paint_under_le htree
  | case4 tree path hshort =>
    cases hpath with
    | root =>
      rw [under_nil, htree.potential_paint_black]
      simp only [ascents_nil, Path.potential]
      omega
    | @red parent path n m _ _ hpath =>
      cases hpath with
      | @black grand path => exact absurd rfl (hshort parent grand path)
    | @black frame path _ _ _ _ hcolor hsibling hpath =>
      have hunder := (Accepts.black hcolor hsibling hpath).balanced_under htree
      rw [ascents_nil, Nat.zero_add]
      exact hunder.potential_paint_under_le htree

/-- Storing an entry in an empty place costs at most two units. -/
theorem ascents_repairRed_leaf_add_potential_le {path : Path α} {entry : α} {n : Nat}
    (h : Balanced (nil.under path) .black n) :
    ascents ((node .red nil entry nil).repairRed path).2 +
        ((node .red nil entry nil).repairRed path).1.potential ≤
      (nil.under path).potential + 2 := by
  obtain ⟨c, n, hnil, hpath⟩ := h.exists_accepts
  cases hnil
  have hleaf : Balanced (node .red nil entry nil) .red 0 := .red .nil .nil
  rw [potential_under]
  exact ascents_settleRed_add_potential_le hpath hleaf

/-! ## Places that are one black node short -/

/-- A repayment leaves a root of the same colour and at most two units more. -/
theorem potential_le_of_repay {tree repaid : Tree α} {frame : Frame α} {events : List Event}
    {n : Nat} (h : tree.repay frame = some (repaid, events)) (htree : tree.color = .black)
    (hsibling : Balanced frame.sibling .black (n + 1)) :
    ascents events = 0 ∧ repaid.color = frame.color ∧
      repaid.potential ≤ (frame.close tree).potential + 2 := by
  obtain ⟨near, entry, far, hfacing⟩ := hsibling.exists_facing frame.side
  have hnode := eq_join_of_facing hfacing
  rw [hnode] at hsibling
  obtain ⟨c, d, k, hk, hnear, hfar⟩ := hsibling.of_join_black
  cases hk
  simp only [repay, hfacing] at h
  rw [potential_close, hnode, htree, color_join, potential_join, hnear.color_eq, hfar.color_eq]
  split at h
  · next hred =>
    cases h
    cases hfar.color_eq.symm.trans hred
    refine ⟨rfl, color_join .., ?_⟩
    rw [potential_join, potential_join, color_join, htree, hnear.color_eq, color_paint_black,
      hfar.potential_paint_black]
    cases c <;> simp only [weight] <;> omega
  · next hblack =>
    split at h
    · next inner middle outer hred =>
      cases h
      have hinner := eq_join_of_facing hred
      rw [hinner] at hnear
      cases (color_join ..).symm.trans hnear.color_eq
      obtain ⟨hin, hout⟩ := hnear.of_join_red
      refine ⟨rfl, color_join .., ?_⟩
      -- neither the far nephew nor a child of the near one is red
      cases d with
      | red => exact absurd hfar.color_eq hblack
      | black =>
        simp only [hinner, potential_join, color_join, htree, hin.color_eq, hout.color_eq,
          hfar.color_eq, weight]
        omega
    · cases h

/-- A repayment that ends the repair costs at most two units. -/
theorem potential_under_le_of_repay {tree repaid : Tree α} {frame : Frame α} {path : Path α}
    {events : List Event} {n m : Nat} (h : tree.repay frame = some (repaid, events))
    (hpath : Accepts (frame :: path) .black (n + 1) m) (htree : Balanced tree .black n)
    (hsibling : Balanced frame.sibling .black (n + 1)) :
    ascents events = 0 ∧
      ((repaid.under path).paint .black).potential ≤
        (tree.under (frame :: path)).potential + 2 := by
  have hunder := balanced_under_of_repay h hpath htree hsibling
  obtain ⟨hevents, hcolor, hpotential⟩ := potential_le_of_repay h htree.color_eq hsibling
  refine ⟨hevents, ?_⟩
  rw [paint_eq_self hunder.color_eq, potential_under, hcolor, under_cons, potential_under,
    Frame.color_close]
  omega

/-- If nobody can pay, the sibling weighs one unit, which it loses when it turns red. -/
theorem potential_paint_red_of_repay {tree : Tree α} {frame : Frame α} {n : Nat}
    (h : tree.repay frame = none) (hsibling : Balanced frame.sibling .black (n + 1)) :
    (frame.sibling.paint .red).potential + 1 = frame.sibling.potential := by
  have hred := balanced_paint_red_of_repay h hsibling
  have hpaint : (frame.sibling.paint .red).paint .black = frame.sibling.paint .black := by
    cases frame.sibling <;> rfl
  rw [← hred.potential_paint_black, hpaint, paint_eq_self hsibling.color_eq]

/-- Pushing a shortage up below a red parent, which then turns black, costs nothing; below a
black one it takes two units away. -/
theorem potential_push_add_le {tree : Tree α} {frame : Frame α} {n : Nat} (path : Path α)
    (h : tree.repay frame = none) (htree : tree.color = .black)
    (hsibling : Balanced frame.sibling .black (n + 1)) :
    (((tree.push frame).paint .black).under path).potential +
        (if (tree.push frame).color = .red then 0 else 2) ≤
      (tree.under (frame :: path)).potential := by
  have hpaint := potential_paint_red_of_repay h hsibling
  have hred := (balanced_paint_red_of_repay h hsibling).color_eq
  rw [push, Frame.paint_close, under_cons, potential_under, potential_under, potential_close,
    potential_close, Frame.color_close, Frame.color_close, Frame.color_close, htree, hred,
    hsibling.color_eq]
  cases hcolor : frame.color with
  | red =>
    have hpath := Path.potential_le_red_add path .black
    simp only [weight, if_pos]
    omega
  | black =>
    simp only [weight, reduceCtorEq, if_false]
    omega

/-- Rotating a red sibling away moves no weight. -/
theorem Accepts.potential_rotate_sibling {tree near far : Tree α} {frame : Frame α}
    {path : Path α} {entry : α} {n m : Nat} (h : Accepts (frame :: path) .black n m)
    (hfacing : frame.sibling.facing frame.side = node .red near entry far)
    (htree : tree.color = .black) :
    (tree.under ({ frame with color := .red, sibling := near } ::
        { side := frame.side, color := .black, entry, sibling := far } :: path)).potential =
      (tree.under (frame :: path)).potential := by
  have hnode := eq_join_of_facing hfacing
  cases h with
  | red hcolor hsibling _ =>
    rw [hnode] at hsibling
    cases (color_join ..).symm.trans hsibling.color_eq
  | @black _ _ _ d _ _ hcolor hsibling hpath =>
    rw [hnode] at hsibling
    cases (color_join ..).symm.trans hsibling.color_eq
    obtain ⟨hnear, hfar⟩ := hsibling.of_join_red
    simp only [under_cons, potential_under, potential_close, Frame.color_close, hcolor, hnode,
      potential_join, color_join, htree, hfar.color_eq, weight]
    omega

/-- Settling a shortage costs at most two units, once what lies in the last place is black;
where a red root can make up for the shortage, it costs none. -/
theorem ascents_settleShort_add_potential_le {tree : Tree α} {path : Path α} {n m : Nat}
    (hpath : Accepts path .black (n + 1) m) (htree : Deficient tree n) :
    ascents (tree.settleShort path).2 +
        (((tree.settleShort path).1.1.paint .black).under (tree.settleShort path).1.2).potential ≤
      ((tree.paint .black).under path).potential + if tree.color = .red then 0 else 2 := by
  fun_induction settleShort tree path generalizing n with
  | case1 tree =>
    simp only [ascents_nil]
    omega
  | case2 tree frame path hred =>
    simp only [ascents_nil]
    omega
  | case3 tree frame path hblack near entry far hfacing lower upper repaid events =>
    rename_i hrepay
    rw [Deficient, if_neg hblack] at htree
    obtain ⟨hlower, hnear⟩ := hpath.rotate_sibling hfacing
    have hrotate : (tree.under (lower :: upper :: path)).potential = _ :=
      hpath.potential_rotate_sibling hfacing htree.color_eq
    obtain ⟨hevents, hpotential⟩ := potential_under_le_of_repay hrepay hlower htree hnear
    rw [hrotate] at hpotential
    simp only [ascents_siblingRotated, hevents, under_nil, paint_eq_self htree.color_eq,
      if_neg hblack]
    rw [Nat.zero_add]
    exact hpotential
  | case4 tree frame path hblack near entry far hfacing lower upper =>
    rename_i hrepay
    rw [Deficient, if_neg hblack] at htree
    obtain ⟨-, hnear⟩ := hpath.rotate_sibling hfacing
    have hrotate : (tree.under (lower :: upper :: path)).potential = _ :=
      hpath.potential_rotate_sibling hfacing htree.color_eq
    have hpush := potential_push_add_le (upper :: path) hrepay htree.color_eq hnear
    simp only [ascents_siblingRotated, ascents_deficiencyPushed, paint_eq_self htree.color_eq,
      if_neg hblack, ascents_nil]
    omega
  | case5 tree frame path hblack repaid events hrepay hfacing =>
    rw [Deficient, if_neg hblack] at htree
    have hsibling := hpath.balanced_sibling hfacing
    obtain ⟨hevents, hpotential⟩ := potential_under_le_of_repay hrepay hpath htree hsibling
    simp only [hevents, under_nil, paint_eq_self htree.color_eq, if_neg hblack]
    omega
  | case6 tree frame path hblack hrepay place events heq hfacing ih =>
    rw [Deficient, if_neg hblack] at htree
    rw [heq] at ih
    have hsibling := hpath.balanced_sibling hfacing
    obtain ⟨k, hdeficient, hup⟩ := deficient_push hrepay hpath htree hsibling
    -- the push is paid by the weight that it takes away, or else ends at a red parent
    have hrest := ih hup hdeficient
    have hpush := potential_push_add_le path hrepay htree.color_eq hsibling
    simp only [ascents_deficiencyPushed, paint_eq_self htree.color_eq, if_neg hblack]
    simp only at hrest
    omega

/-- Repairing a shortage costs two units, but no more than turning the red root of what lies in
the place black if it has one. -/
theorem ascents_repairShort_add_potential_le {tree : Tree α} {path : Path α} {c : Color}
    {n m : Nat} (hpath : Accepts path .black (n + 1) m) (htree : Balanced tree c n) :
    ascents (tree.repairShort path).2 + (tree.repairShort path).1.potential ≤
      tree.potential + Path.potential path .black + if c = .red then 1 else 2 := by
  have hsettle := ascents_settleShort_add_potential_le hpath htree.deficient
  rw [potential_under (tree.paint .black), color_paint_black, htree.color_eq] at hsettle
  refine Nat.le_trans hsettle ?_
  cases c with
  | red =>
    rw [htree.potential_paint_black]
    simp only [if_pos]
    omega
  | black =>
    rw [paint_eq_self htree.color_eq]
    exact Nat.le_refl _

/-! ## Taking a node out -/

/-- An unlinked node leaves an empty place below some frame, whose sibling moves up. But for the
entries, the tree with that place is the one before. -/
theorem exists_frame_unlink (color : Color) (left right : Tree α) (entry : α) (path : Path α) :
    ∃ frame up, unlink color left right path = (frame.sibling, up, frame.color) ∧
      (nil.under (frame :: up)).Alike ((node color left entry right).under path) := by
  unfold unlink
  split
  · exact ⟨⟨.left, color, entry, right⟩, path, rfl, rfl⟩
  · next c l e r =>
    split
    · next hspine =>
      cases eq_nil_of_spine_eq_nil hspine
      exact ⟨⟨.right, color, entry, node c l e r⟩, path, rfl, rfl⟩
    · next successor spine hspine =>
      refine ⟨successor, _, rfl, ?_⟩
      rw [← List.cons_append, ← hspine, under_append, nil_under_spine, under_nil]
      exact alike_under_replace right ⟨.right, color, entry, node c l e r⟩ successor.entry path

/-- Erasing a node costs at most one unit. -/
theorem ascents_erase_add_potential_le {color : Color} {left right : Tree α} {entry : α}
    {path : Path α} {m : Nat}
    (h : Balanced ((node color left entry right).under path) .black m) :
    ascents (erase color left right path).2 + (erase color left right path).1.potential ≤
      ((node color left entry right).under path).potential + 1 := by
  obtain ⟨frame, up, hunlink, halike⟩ := exists_frame_unlink color left right entry path
  obtain ⟨d, k, htree, hred, hblack⟩ := exists_accepts_unlink h
  have hbefore : ((node color left entry right).under path).potential =
      weight frame.color .black frame.sibling.color + frame.sibling.potential +
        Path.potential up frame.color := by
    rw [← halike.potential_eq, potential_under, Path.potential]
    exact Nat.zero_add _
  rw [hbefore, erase]
  rw [hunlink] at htree hred hblack ⊢
  simp only at htree hred hblack ⊢
  cases hcolor : frame.color with
  | red =>
    have hup := Path.potential_le_red_add up frame.sibling.color
    simp only [reduceCtorEq, if_false, ascents_nil, potential_under, weight]
    omega
  | black =>
    have hshort := ascents_repairShort_add_potential_le (hblack hcolor) htree
    rw [if_pos rfl, htree.color_eq]
    refine Nat.le_trans hshort ?_
    cases d <;> simp only [weight, reduceCtorEq, if_true, if_false] <;> omega

end Tree

end RedBlack
