import RedBlack.Linked.Removal
import RedBlack.Proofs.Linked.Redraw
import RedBlack.Proofs.Tree.Balance

/-!
# Removal from Linked Trees

Taking a node out of a linked tree and repairing the place it leaves, as it is done on links,
is `Tree.unlink` and `Tree.repairShort` of the tree that the links form. The repair relies on
the sibling of a place that is one black node short; that there is always one follows from
what the path accepts.
-/

namespace RedBlack

namespace LinkedTree

open RedBlack.Tree (Frame Path Accepts Balanced Deficient join)

variable {K V : Type} {tree inner near far : Tree (Cell K V)} {frame : Frame (Cell K V)}
  {path : Path (Cell K V)} {entry : Cell K V} {color : Color} {id : SlotId} {side : Side}

/-! ## Places that are one black node short -/

/-- A tree with a black node on every path has a root. -/
theorem exists_link_of_balanced {n : Nat} (h : Balanced tree color (n + 1)) :
    ∃ id, tree.link = some id := by
  cases h <;> exact ⟨_, rfl⟩

/-- What the repair does about a sibling with the given red children. -/
def settleNephews (steps : Nat) (parent sibling : SlotId) (side : Side) (first : List Event)
    (near far : Link) : LinkM K V (Link × List Event) :=
  match near, far with
  | none, none => do
    paint sibling .red
    let (place, events) ← repairShortWithin steps (some parent) (← node parent).parent
    return (place, first ++ .deficiencyPushed :: events)
  | some near, none => do
    let (sibling, second) ← rotateNearNephew parent sibling near side
    rotateFarNephew parent sibling side
    return (← getRoot, first ++ second ++ [.farNephew])
  | _, some _ => do
    rotateFarNephew parent sibling side
    return (← getRoot, first ++ [.farNephew])

/-- What the repair does about a sibling that is not red. -/
def settleSibling (steps : Nat) (parent sibling : SlotId) (side : Side) (first : List Event) :
    LinkM K V (Link × List Event) := do
  let nephews ← node sibling
  let near ← ifRed (nephews.child side)
  let far ← ifRed (nephews.child side.opposite)
  settleNephews steps parent sibling side first near far

/-- One step of the repair looks at the place, at the sibling, and at the children of the
sibling. -/
theorem repairShortWithin_succ (steps : Nat) (place parent : Link) :
    (repairShortWithin (steps + 1) place parent : LinkM K V (Link × List Event)) = (do
      if place = (← getRoot) then return (place, [])
      else if ← isRed place then return (place, [])
      else
        let parent ← resolve parent
        let side ← childSide place parent
        let (sibling, first) ← rotateRedSibling parent side
        settleSibling steps parent sibling side first) :=
  rfl

namespace Redraws

/-- A sibling that is there is found. -/
theorem sibling (frame : Frame (Cell K V)) (hlink : frame.sibling.link = some id)
    (tree : Tree (Cell K V)) (path : Path (Cell K V)) :
    Redraws (LinkedTree.sibling frame.entry.slot frame.side.opposite) (tree.under (frame :: path))
      (tree.under (frame :: path)) id := by
  refine .bind (.node frame tree path) ?_
  rw [Frame.child_opposite_node, hlink]
  exact .pure _ _

/-- A red sibling is rotated above its parent, whose new sibling is the near child of the
old one. -/
theorem rotateRedSibling (hlink : near.link = some id) (side : Side) (color : Color)
    (parent : Cell K V) (tree far : Tree (Cell K V)) (path : Path (Cell K V)) :
    Redraws (LinkedTree.rotateRedSibling parent.slot side)
      (tree.under (⟨side, color, parent, join side .red near entry far⟩ :: path))
      (tree.under (⟨side, .red, parent, near⟩ :: ⟨side, .black, entry, far⟩ :: path))
      (id, [.siblingRotated]) := by
  let frame : Frame (Cell K V) := ⟨side, color, parent, join side .red near entry far⟩
  have hsibling : frame.sibling.link = some entry.slot :=
    Frame.link_close ⟨side, .red, entry, far⟩ near
  have hred : (frame.sibling.color == .red) = true := by
    rw [Tree.color_join]
    rfl
  refine .bind (.sibling frame hsibling tree path) ?_
  have hisRed := isRed_sibling frame tree path
  rw [hsibling, hred] at hisRed
  refine .bind hisRed ?_
  rw [if_pos rfl]
  refine .bind (.paint_sibling frame hsibling .black tree path) ?_
  rw [Tree.paint_join]
  refine .bind (.paint_frame .red _ tree path) ?_
  refine .bind (.rotate side .red .black parent entry tree near far path) ?_
  -- after the rotation, the sibling is read again below the new parent
  have hlower := sibling ⟨side, .red, parent, near⟩ hlink tree (⟨side, .black, entry, far⟩ :: path)
  exact .bind hlower (.pure _ _)

/-- A black sibling stays where it is. -/
theorem rotateRedSibling_of_black (hlink : frame.sibling.link = some id)
    (hblack : frame.sibling.color ≠ .red) (tree : Tree (Cell K V)) (path : Path (Cell K V)) :
    Redraws (LinkedTree.rotateRedSibling frame.entry.slot frame.side) (tree.under (frame :: path))
      (tree.under (frame :: path)) (id, []) := by
  refine .bind (.sibling frame hlink tree path) ?_
  have hisRed := isRed_sibling frame tree path
  rw [hlink] at hisRed
  refine .bind hisRed ?_
  rw [if_neg (by rwa [beq_iff_eq])]
  exact .pure _ _

/-- A red far nephew turns black, and its parent takes the place and the colour of the
parent of the place. -/
theorem rotateFarNephew (hlink : far.link = some id) (side : Side) (c d : Color)
    (parent entry : Cell K V) (tree near : Tree (Cell K V)) (path : Path (Cell K V)) :
    Redraws (LinkedTree.rotateFarNephew parent.slot entry.slot side)
      (tree.under (⟨side, c, parent, join side d near entry far⟩ :: path))
      ((join side c (join side .black tree parent near) entry (far.paint .black)).under path)
      () := by
  let frame : Frame (Cell K V) := ⟨side, c, parent, join side d near entry far⟩
  let nephew : Frame (Cell K V) := ⟨side, c, entry, far⟩
  let painted : Frame (Cell K V) := ⟨side, c, entry, far.paint .black⟩
  let lower : Frame (Cell K V) := ⟨side, .black, parent, nephew.close near⟩
  have hsibling : frame.sibling.link = some entry.slot :=
    Frame.link_close ⟨side, d, entry, far⟩ near
  refine .bind (.node frame tree path) ?_
  rw [Frame.color_node]
  refine .bind (.paint_sibling frame hsibling c tree path) ?_
  rw [Tree.paint_join]
  refine .bind (.paint_frame .black _ tree path) ?_
  have hlower : lower.sibling = nephew.close near := rfl
  refine .bind (.node_sibling nephew hlower tree path) ?_
  rw [Frame.child_opposite_node, hlink]
  refine .bind (.resolve id _) ?_
  -- the nephew is painted in its own place, below the sibling
  have hpaint := paint_sibling nephew hlink .black near (lower.across tree :: path)
  have hbefore : near.under (nephew :: lower.across tree :: path) = tree.under (lower :: path) :=
    Tree.under_across tree lower path
  have hafter : near.under (painted :: lower.across tree :: path) =
      tree.under ({ lower with sibling := painted.close near } :: path) :=
    Tree.under_across tree { lower with sibling := painted.close near } path
  rw [hbefore, hafter] at hpaint
  refine .bind hpaint ?_
  exact rotate side .black c parent entry tree near (far.paint .black) path

/-- A red near nephew is rotated above the sibling and becomes the new sibling. -/
theorem rotateNearNephew (side : Side) (c d e : Color) (parent entry middle : Cell K V)
    (tree inner outer far : Tree (Cell K V)) (path : Path (Cell K V)) :
    Redraws (LinkedTree.rotateNearNephew parent.slot entry.slot middle.slot side)
      (tree.under
        (⟨side, c, parent, join side d (join side e inner middle outer) entry far⟩ :: path))
      (tree.under
        (⟨side, c, parent, join side .black inner middle (join side .red outer entry far)⟩ :: path))
      (middle.slot, [.nearNephew]) := by
  let frame : Frame (Cell K V) := ⟨side, c, parent, .nil⟩
  let rest : Path (Cell K V) := frame.across tree :: path
  -- the sibling is seen from the place of the sibling
  have hview : ∀ sibling : Tree (Cell K V),
      tree.under ({ frame with sibling } :: path) = sibling.under rest :=
    fun sibling => (Tree.under_across tree { frame with sibling } path).symm
  have hsibling := sibling
    { frame with sibling := join side .black inner middle (join side .red outer entry far) }
    (Frame.link_close ⟨side, .black, middle, join side .red outer entry far⟩ inner) tree path
  rw [hview] at hsibling
  rw [hview, hview]
  let lower : Frame (Cell K V) := ⟨side, d, entry, far⟩
  refine .bind (.paint_frame .black ⟨side, e, middle, outer⟩ inner (lower :: rest)) ?_
  refine .bind (.paint_frame .red lower (join side .black inner middle outer) rest) ?_
  have hrotate := rotate side.opposite .red .black entry middle far outer inner rest
  simp only [Tree.join_opposite] at hrotate
  refine .bind hrotate ?_
  exact .bind hsibling (.pure _ _)

/-- A red far nephew pays. -/
theorem settleNephews_of_far (hlink : far.link = some id) (steps : Nat) (side : Side) (c d : Color)
    (parent : Cell K V) (tree near : Tree (Cell K V)) (path : Path (Cell K V))
    (first : List Event) (link : Link) :
    Redraws (settleNephews steps parent.slot entry.slot side first link (some id))
      (tree.under (⟨side, c, parent, join side d near entry far⟩ :: path))
      ((join side c (join side .black tree parent near) entry (far.paint .black)).under path)
      (((join side c (join side .black tree parent near) entry (far.paint .black)).under path).link,
        first ++ [.farNephew]) := by
  have hpay := rotateFarNephew hlink side c d parent entry tree near path
  cases link <;> exact .bind hpay (.bind (.getRoot _) (.pure _ _))

/-- A red near nephew pays once it is on the far side. -/
theorem settleNephews_of_near (steps : Nat) (side : Side) (c d e : Color)
    (parent entry middle : Cell K V) (tree inner outer far : Tree (Cell K V))
    (path : Path (Cell K V)) (first : List Event) :
    Redraws (settleNephews steps parent.slot entry.slot side first (some middle.slot) none)
      (tree.under
        (⟨side, c, parent, join side d (join side e inner middle outer) entry far⟩ :: path))
      ((join side c (join side .black tree parent inner) middle
        (join side .black outer entry far)).under path)
      (((join side c (join side .black tree parent inner) middle
        (join side .black outer entry far)).under path).link,
          first ++ [.nearNephew] ++ [.farNephew]) := by
  refine .bind (.rotateNearNephew side c d e parent entry middle tree inner outer far path) ?_
  have hlink : (join side .red outer entry far).link = some entry.slot :=
    Frame.link_close ⟨side, .red, entry, far⟩ outer
  have hpay := rotateFarNephew hlink side c .black parent middle tree inner path
  rw [Tree.paint_join] at hpay
  exact .bind hpay (.bind (.getRoot _) (.pure _ _))

/-- If no nephew is red, the sibling turns red and the repair goes on at the parent. -/
theorem settleNephews_of_none {steps : Nat} {new : Tree (Cell K V)} {place : Link}
    {events : List Event} (hlink : frame.sibling.link = some id)
    (h : Redraws (LinkedTree.repairShortWithin steps (tree.push frame).link (Path.owner path))
      ((tree.push frame).under path) new (place, events)) (first : List Event) :
    Redraws (settleNephews steps frame.entry.slot id frame.side first none none)
      (tree.under (frame :: path)) new (place, first ++ .deficiencyPushed :: events) := by
  refine .bind (.paint_sibling frame hlink .red tree path) ?_
  refine .bind (.node { frame with sibling := frame.sibling.paint .red } tree path) ?_
  rw [Frame.parent_node]
  rw [Tree.push, Frame.link_close] at h
  exact .bind h (.pure _ _)

/-- The children of a sibling are looked at, the near one first. -/
theorem settleSibling {steps : Nat} {first : List Event} {c d : Color} {parent : Cell K V}
    {new : Tree (Cell K V)} {answer : Link × List Event}
    (h : Redraws
      (settleNephews steps parent.slot entry.slot side first
        (if near.color = .red then near.link else none)
        (if far.color = .red then far.link else none))
      (tree.under (⟨side, c, parent, join side d near entry far⟩ :: path)) new answer) :
    Redraws (LinkedTree.settleSibling steps parent.slot entry.slot side first)
      (tree.under (⟨side, c, parent, join side d near entry far⟩ :: path)) new answer := by
  let frame : Frame (Cell K V) := ⟨side, c, parent, join side d near entry far⟩
  let nephew : Frame (Cell K V) := ⟨side, d, entry, far⟩
  have hsibling : frame.sibling = nephew.close near := rfl
  -- the children of the sibling are seen from their own places
  have hview : tree.under (frame :: path) = near.under (nephew :: frame.across tree :: path) :=
    (Tree.under_across tree frame path).symm
  have hnear := ifRed near (nephew :: frame.across tree :: path)
  have hfar := ifRed_sibling nephew near (frame.across tree :: path)
  rw [← hview] at hnear hfar
  refine .bind (.node_sibling nephew hsibling tree path) ?_
  rw [Frame.child_node, Frame.child_opposite_node]
  exact .bind hnear (.bind hfar h)

/-- A red nephew pays on links as it does in the tree. -/
theorem settleSibling_of_repay_eq_some {repaid : Tree (Cell K V)} {events : List Event}
    (h : tree.repay frame = some (repaid, events)) (hlink : frame.sibling.link = some id)
    (steps : Nat) (path : Path (Cell K V)) (first : List Event) :
    Redraws (LinkedTree.settleSibling steps frame.entry.slot id frame.side first)
      (tree.under (frame :: path)) (repaid.under path)
      ((repaid.under path).link, first ++ events) := by
  obtain ⟨side, color, parent, sibling⟩ := frame
  unfold Tree.repay at h
  split at h
  · cases h
  · next d near entry far hfacing =>
    -- the tree and the links are asked in the same order: the far nephew first
    obtain rfl : sibling = join side d near entry far := Tree.eq_join_of_facing hfacing
    cases (Frame.link_close ⟨side, d, entry, far⟩ near).symm.trans hlink
    refine settleSibling ?_
    split at h
    · next hred =>
      cases h
      obtain ⟨nephew, hnephew⟩ := Tree.exists_link_of_red hred
      rw [if_pos hred, hnephew]
      exact settleNephews_of_far hnephew steps side color d parent tree near path first _
    · next hfar =>
      split at h
      · next inner middle outer hnear =>
        cases h
        obtain rfl : near = join side .red inner middle outer := Tree.eq_join_of_facing hnear
        have hmiddle : (join side .red inner middle outer).link = some middle.slot :=
          Frame.link_close ⟨side, .red, middle, outer⟩ inner
        rw [if_neg hfar, Tree.color_join, if_pos rfl, hmiddle]
        have hpay := settleNephews_of_near steps side color d .red parent entry middle tree inner
          outer far path first
        rwa [List.append_assoc] at hpay
      · cases h

/-- If no nephew pays, the shortage is pushed up to the parent. -/
theorem settleSibling_of_repay_eq_none {steps : Nat} {new : Tree (Cell K V)} {place : Link}
    {events : List Event} (hrepay : tree.repay frame = none)
    (hlink : frame.sibling.link = some id)
    (h : Redraws (LinkedTree.repairShortWithin steps (tree.push frame).link (Path.owner path))
      ((tree.push frame).under path) new (place, events)) (first : List Event) :
    Redraws (LinkedTree.settleSibling steps frame.entry.slot id frame.side first)
      (tree.under (frame :: path)) new (place, first ++ .deficiencyPushed :: events) := by
  have hnone := settleNephews_of_none hlink h first
  obtain ⟨side, color, parent, sibling⟩ := frame
  unfold Tree.repay at hrepay
  split at hrepay
  · next hfacing =>
    cases Tree.eq_nil_of_facing hfacing
    cases hlink
  · next d near entry far hfacing =>
    obtain rfl : sibling = join side d near entry far := Tree.eq_join_of_facing hfacing
    cases (Frame.link_close ⟨side, d, entry, far⟩ near).symm.trans hlink
    refine settleSibling ?_
    split at hrepay
    · cases hrepay
    · next hfar =>
      split at hrepay
      · cases hrepay
      · next hnear =>
        -- a red near nephew would have paid
        have hblack : near.color ≠ .red := by
          intro hred
          obtain ⟨inner, middle, outer, hfacing⟩ := Tree.exists_facing_of_color hred side
          exact hnear inner middle outer hfacing
        rw [if_neg hfar, if_neg hblack]
        exact hnone

/-- At the root, the repair ends. -/
theorem repairShortWithin_root (tree : Tree (Cell K V)) (steps : Nat) (parent : Link) :
    Redraws (LinkedTree.repairShortWithin (steps + 1) tree.link parent) tree tree
      (tree.link, []) := by
  rw [repairShortWithin_succ]
  refine .bind (.getRoot tree) ?_
  rw [if_pos rfl]
  exact .pure _ _

/-- At a red node, the repair ends. -/
theorem repairShortWithin_of_red (hred : tree.color = .red) (path : Path (Cell K V)) (steps : Nat)
    (parent : Link) :
    Redraws (LinkedTree.repairShortWithin (steps + 1) tree.link parent) (tree.under path)
      (tree.under path) (tree.link, []) := by
  rw [repairShortWithin_succ]
  refine .bind (.getRoot (tree.under path)) ?_
  -- a red root ends the repair even earlier
  split
  · exact .pure _ _
  · refine .bind (.isRed tree path) ?_
    rw [if_pos (beq_iff_eq.2 hred)]
    exact .pure _ _

/-- Everywhere else, the repair goes on with the sibling. -/
theorem repairShortWithin_of_black {steps : Nat} {new : Tree (Cell K V)}
    {answer : Link × List Event} (hblack : tree.color ≠ .red)
    (hlink : frame.sibling.link = some id)
    (h : Redraws
      (do
        let (sibling, first) ← LinkedTree.rotateRedSibling frame.entry.slot frame.side
        LinkedTree.settleSibling steps frame.entry.slot sibling frame.side first)
      (tree.under (frame :: path)) new answer) :
    Redraws (LinkedTree.repairShortWithin (steps + 1) tree.link (Path.owner (frame :: path)))
      (tree.under (frame :: path)) new answer := by
  rw [repairShortWithin_succ]
  refine .of_nodup fun hnodup => .bind (.getRoot (tree.under (frame :: path))) ?_
  -- below a frame, the place is not the root
  rw [if_neg (Tree.link_under_ne hnodup)]
  refine .bind (.isRed tree (frame :: path)) ?_
  rw [if_neg (by rwa [beq_iff_eq])]
  refine .bind (.resolve frame.entry.slot _) ?_
  refine .bind (.childSide frame tree path fun _ => ?_) h
  rw [hlink]
  exact Option.some_ne_none id

/-- Moving a shortage up on links moves it up in the tree. The steps suffice if they are more
than the frames above the place. -/
theorem repairShortWithin {steps n m : Nat} (hpath : Accepts path .black (n + 1) m)
    (htree : Deficient tree n) (hsteps : path.length < steps) :
    Redraws (LinkedTree.repairShortWithin steps tree.link (Path.owner path)) (tree.under path)
      ((tree.settleShort path).1.1.under (tree.settleShort path).1.2)
      ((tree.settleShort path).1.1.link, (tree.settleShort path).2) := by
  obtain ⟨steps, rfl⟩ : ∃ k, steps = k + 1 := Nat.exists_eq_succ_of_ne_zero (by omega)
  fun_induction Tree.settleShort tree path generalizing n steps with
  | case1 tree => exact repairShortWithin_root tree steps none
  | case2 tree frame path hred => exact repairShortWithin_of_red hred (frame :: path) steps _
  | case3 tree frame path hblack near entry far hfacing lower upper repaid events =>
    rename_i hrepay
    obtain ⟨-, hnear⟩ := hpath.rotate_sibling hfacing
    obtain ⟨id, hlink⟩ := exists_link_of_balanced hnear
    obtain ⟨side, color, parent, sibling⟩ := frame
    obtain rfl : sibling = join side .red near entry far := Tree.eq_join_of_facing hfacing
    refine repairShortWithin_of_black hblack (Frame.link_close ⟨side, .red, entry, far⟩ near) ?_
    refine .bind (.rotateRedSibling hlink side color parent tree far path) ?_
    exact settleSibling_of_repay_eq_some hrepay hlink steps (upper :: path) [.siblingRotated]
  | case4 tree frame path hblack near entry far hfacing lower upper =>
    rename_i hrepay
    obtain ⟨-, hnear⟩ := hpath.rotate_sibling hfacing
    obtain ⟨id, hlink⟩ := exists_link_of_balanced hnear
    obtain ⟨side, color, parent, sibling⟩ := frame
    obtain rfl : sibling = join side .red near entry far := Tree.eq_join_of_facing hfacing
    refine repairShortWithin_of_black hblack (Frame.link_close ⟨side, .red, entry, far⟩ near) ?_
    refine .bind (.rotateRedSibling hlink side color parent tree far path) ?_
    -- the parent was painted red, so the shortage ends there
    obtain ⟨steps, rfl⟩ : ∃ k, steps = k + 1 := Nat.exists_eq_succ_of_ne_zero (by
      simp only [List.length_cons] at hsteps
      omega)
    have hred : (tree.push lower).color = .red := Tree.color_join ..
    have hend := repairShortWithin_of_red hred (upper :: path) steps (Path.owner (upper :: path))
    exact settleSibling_of_repay_eq_none hrepay hlink hend [.siblingRotated]
  | case5 tree frame path hblack repaid events hrepay hfacing =>
    have hsibling := hpath.balanced_sibling hfacing
    obtain ⟨id, hlink⟩ := exists_link_of_balanced hsibling
    -- what shows itself neither red nor empty is black
    have hcolor : frame.sibling.color ≠ .red := by
      rw [hsibling.color_eq]
      decide
    refine repairShortWithin_of_black hblack hlink ?_
    refine .bind (.rotateRedSibling_of_black hlink hcolor tree path) ?_
    exact settleSibling_of_repay_eq_some hrepay hlink steps path []
  | case6 tree frame path hblack hrepay place events heq hfacing ih =>
    rw [Deficient, if_neg hblack] at htree
    have hsibling := hpath.balanced_sibling hfacing
    obtain ⟨id, hlink⟩ := exists_link_of_balanced hsibling
    have hcolor : frame.sibling.color ≠ .red := by
      rw [hsibling.color_eq]
      decide
    -- the parent is short in turn, one frame further up
    obtain ⟨k, hpush, hup⟩ := Tree.deficient_push hrepay hpath htree hsibling
    simp only [List.length_cons] at hsteps
    obtain ⟨steps, rfl⟩ : ∃ k, steps = k + 1 := Nat.exists_eq_succ_of_ne_zero (by omega)
    have hrest := ih hup hpush steps (by omega)
    rw [heq] at hrest
    refine repairShortWithin_of_black hblack hlink ?_
    refine .bind (.rotateRedSibling_of_black hlink hcolor tree path) ?_
    exact settleSibling_of_repay_eq_none hrepay hlink hrest []

/-- Repairing a shortage on links repairs the tree. -/
theorem repairShort {n m : Nat} (hpath : Accepts path .black (n + 1) m)
    (htree : Deficient tree n) :
    Redraws (LinkedTree.repairShort tree.link (Path.owner path)) (tree.under path)
      (tree.repairShort path).1 (tree.repairShort path).2 := by
  refine .budget fun steps hsteps => ?_
  have hlength := Tree.length_add_size_le tree path
  refine .bind (.repairShortWithin hpath htree (by omega)) ?_
  rw [Tree.repairShort]
  generalize tree.settleShort path = settled
  obtain ⟨⟨last, up⟩, events⟩ := settled
  -- an empty place has no root to paint
  cases last with
  | nil => exact .pure _ _
  | node color left cell right =>
    have hlink : (Tree.node color left cell right).link = some cell.slot := rfl
    exact .bind (.paint hlink .black up) (.pure _ _)

end Redraws

end LinkedTree

end RedBlack
