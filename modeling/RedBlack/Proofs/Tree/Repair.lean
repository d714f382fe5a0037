import RedBlack.Event
import RedBlack.Proofs.Tree.Path

/-!
# Repairs on Trees

The rebalancing of a coloured tree around one of its places, without slots or links. Each
repair answers with the events of its steps.

* `settleRed` moves a red node under a red parent up; `repairRed` then colours the root
  black.
* `settleShort` moves a place whose paths are one black node short up; `repairShort` then
  colours what lies in the last place black.
* `unlink` takes a node out of its place and says where a black node may be missing;
  `erase` repairs the tree afterwards.

No repair loses, adds or moves an entry in the order of the tree (`toList_repairRed`,
`toList_repairShort`); erasing removes exactly the entry of the node (`toList_erase`).
-/

namespace RedBlack

/-- How red nephews may pay for a missing black node. -/
def Event.repayments : List (List Event) :=
  [[farNephew], [nearNephew, farNephew]]

namespace Tree

variable {α : Type}

/-! ## Red nodes under red parents -/

/-- Let the red node `tree`, which hangs from the red frame `parent` under the frame
`grand`, and its parent share a black node with `grand`. An inner node is rotated to the
outside first. -/
def rotateGrand (tree : Tree α) (parent grand : Frame α) : Tree α × List Event :=
  if parent.side = grand.side then
    (join grand.side .black tree parent.entry
      (join grand.side .red parent.sibling grand.entry grand.sibling), [.grandparentRotated])
  else
    -- an inner node: it takes the place of the grandparent itself
    match tree.facing grand.side with
    | nil => (grand.close (parent.close tree), [])
    | node _ near entry far =>
      (join grand.side .black (join grand.side .red parent.sibling parent.entry near) entry
        (join grand.side .red far grand.entry grand.sibling),
        [.straightened, .grandparentRotated])

/-- Move a red node under a red parent up until there is no such pair. -/
def settleRed : Tree α → Path α → Tree α × List Event
  | tree, parent :: grand :: path =>
    if parent.color = .red then
      -- a red uncle shares the black of the grandparent, which is then the red node
      if grand.sibling.color = .red then
        let (tree, events) :=
          settleRed
            ({ grand with color := .red, sibling := grand.sibling.paint .black : Frame α }.close
              ({ parent with color := .black : Frame α }.close tree)) path
        (tree, .recolored :: events)
      else
        let (tree, events) := tree.rotateGrand parent grand
        (tree.under path, events)
    else (tree.under (parent :: grand :: path), [])
  | tree, path => (tree.under path, [])

/-- Repair a tree around a red node whose parent may be red too, and colour the root
black. -/
def repairRed (tree : Tree α) (path : Path α) : Tree α × List Event :=
  let (tree, events) := tree.settleRed path
  (tree.paint .black, events)

/-! ## Places that are one black node short -/

/-- Let a red nephew pay for the black node that `tree`, in the place of `frame`, is
short of. The sibling is not red. -/
def repay (tree : Tree α) (frame : Frame α) : Option (Tree α × List Event) :=
  match frame.sibling.facing frame.side with
  | nil => none
  | node _ near entry far =>
    -- a red node on the far side turns black and joins the rotated side
    if far.color = .red then
      some (join frame.side frame.color (join frame.side .black tree frame.entry near) entry
        (far.paint .black), [.farNephew])
    else
      -- a red node on the near side moves up into the place of the parent
      match near.facing frame.side with
      | node .red inner middle outer =>
        some (join frame.side frame.color (join frame.side .black tree frame.entry inner) middle
          (join frame.side .black outer entry far), [.nearNephew, .farNephew])
      | _ => none

/-- Colour the sibling red, so that the parent is short as well. -/
def push (tree : Tree α) (frame : Frame α) : Tree α :=
  { frame with sibling := frame.sibling.paint .red : Frame α }.close tree

/-- Move a place whose paths are one black node short up until what lies in it can be
coloured black, or has the right number of black nodes already. Gives what lies in the last
place and the path to it. -/
def settleShort : Tree α → Path α → (Tree α × Path α) × List Event
  | tree, [] => ((tree, []), [])
  | tree, frame :: path =>
    if tree.color = .red then ((tree, frame :: path), [])
    else
      match frame.sibling.facing frame.side with
      | node .red near entry far =>
        -- a red sibling is rotated away first, which makes the parent red
        let lower : Frame α := { frame with color := .red, sibling := near }
        let upper : Frame α := { side := frame.side, color := .black, entry, sibling := far }
        match tree.repay lower with
        | some (tree, events) => ((tree.under (upper :: path), []), .siblingRotated :: events)
        | none => ((tree.push lower, upper :: path), [.siblingRotated, .deficiencyPushed])
      | _ =>
        match tree.repay frame with
        | some (tree, events) => ((tree.under path, []), events)
        | none =>
          let (place, events) := settleShort (tree.push frame) path
          (place, .deficiencyPushed :: events)

/-- Repair a tree after the paths through a place lost a black node. -/
def repairShort (tree : Tree α) (path : Path α) : Tree α × List Event :=
  let ((tree, path), events) := tree.settleShort path
  ((tree.paint .black).under path, events)

/-! ## Taking a node out -/

/-- Take the node with two subtrees out of the place at the end of a path. Gives what lies
in the place where a black node may be missing, the path to it, and the colour that the
paths through it lost. A node with two children is replaced by its successor. -/
def unlink (color : Color) (left right : Tree α) (path : Path α) : Tree α × Path α × Color :=
  match left with
  | nil => (right, path, color)
  | node _ _ _ _ =>
    match right.spine .left [] with
    | [] => (left, path, color)
    -- the successor is the lowest node on the left spine of the right subtree
    | successor :: spine =>
      (successor.sibling, spine ++ ⟨.right, color, successor.entry, left⟩ :: path,
        successor.color)

/-- Take a node out of the place at the end of a path and repair the tree. -/
def erase (color : Color) (left right : Tree α) (path : Path α) : Tree α × List Event :=
  let (tree, path, lost) := unlink color left right path
  if lost = .black then tree.repairShort path else (tree.under path, [])

theorem fst_repairRed (tree : Tree α) (path : Path α) :
    (tree.repairRed path).1 = (tree.settleRed path).1.paint .black := rfl

/-! ## Repayments -/

/-- A repayment is one rotation, or two if the far nephew is black. -/
theorem mem_of_repay {tree repaid : Tree α} {frame : Frame α} {events : List Event}
    (h : tree.repay frame = some (repaid, events)) : events ∈ Event.repayments := by
  unfold repay at h
  split at h
  · cases h
  · split at h
    · cases h
      decide
    · split at h
      · cases h
        decide
      · cases h

/-- Every repayment ends with a red far nephew. -/
theorem farNephew_mem_of_repay {tree repaid : Tree α} {frame : Frame α} {events : List Event}
    (h : tree.repay frame = some (repaid, events)) : .farNephew ∈ events := by
  have hends : ∀ events ∈ Event.repayments, .farNephew ∈ events := by decide
  exact hends events (mem_of_repay h)

/-! ## Entries -/

/-- Rotating at the grandparent keeps the entries and their order. -/
theorem toList_rotateGrand (tree : Tree α) (parent grand : Frame α) :
    (tree.rotateGrand parent grand).1.toList = (grand.close (parent.close tree)).toList := by
  unfold rotateGrand
  split
  · next h =>
    rw [Frame.close, Frame.close, h]
    cases grand.side <;> simp [join, toList]
  · next h =>
    split
    · rfl
    · next hfacing =>
      rw [eq_join_of_facing hfacing, Frame.close, Frame.close]
      -- the two sides differ, so only two of the four cases remain
      revert h
      cases parent.side <;> cases grand.side <;> simp [join, toList]

/-- Settling a red node keeps the entries and their order. -/
theorem toList_settleRed (tree : Tree α) (path : Path α) :
    (tree.settleRed path).1.toList = (tree.under path).toList := by
  fun_induction settleRed tree path with
  | case1 tree parent grand path hred huncle tree' events heq ih =>
    rw [heq] at ih
    rw [ih, under_cons, under_cons]
    apply toList_under_congr
    cases hgrand : grand.side <;> cases hparent : parent.side <;>
      simp [Frame.close, join, toList, hgrand, hparent]
  | case2 tree parent grand path hred huncle tree' events heq =>
    apply toList_under_congr
    have h := toList_rotateGrand tree parent grand
    rwa [heq] at h
  | case3 => rfl
  | case4 => rfl

theorem toList_repairRed (tree : Tree α) (path : Path α) :
    (tree.repairRed path).1.toList = (tree.under path).toList := by
  rw [repairRed, toList_paint, toList_settleRed]

/-- A repayment by a nephew keeps the entries and their order. -/
theorem toList_of_repay {tree repaid : Tree α} {frame : Frame α} {events : List Event}
    (h : tree.repay frame = some (repaid, events)) :
    repaid.toList = (frame.close tree).toList := by
  unfold repay at h
  split at h
  · cases h
  · next hsibling =>
    rw [Frame.close, eq_join_of_facing hsibling]
    split at h
    · cases h
      -- the far nephew pays
      cases frame.side <;> simp [join, toList]
    · split at h
      · next hnear =>
        cases h
        -- the near nephew pays
        rw [eq_join_of_facing hnear]
        cases frame.side <;> simp [join, toList]
      · cases h

theorem toList_push (tree : Tree α) (frame : Frame α) :
    (tree.push frame).toList = (frame.close tree).toList := by
  rw [push, Frame.close, Frame.close]
  cases frame.side <;> simp [join, toList]

/-- Rotating a red sibling away keeps the entries and their order. -/
theorem toList_close_close_of_facing {tree near far : Tree α} {frame : Frame α} {color : Color}
    {entry : α} (h : frame.sibling.facing frame.side = node color near entry far) :
    (Frame.close ⟨frame.side, .black, entry, far⟩
      ({ frame with color := .red, sibling := near : Frame α }.close tree)).toList =
        (frame.close tree).toList := by
  rw [Frame.close, Frame.close, Frame.close, eq_join_of_facing h]
  exact (toList_rotate frame.side).symm

/-- Settling a shortage keeps the entries and their order. -/
theorem toList_settleShort (tree : Tree α) (path : Path α) :
    ((tree.settleShort path).1.1.under (tree.settleShort path).1.2).toList =
      (tree.under path).toList := by
  fun_induction settleShort tree path with
  | case1 => rfl
  | case2 => rfl
  | case3 tree frame path hblack near entry far hfacing lower upper repaid events hrepay =>
    have h : repaid.toList = (lower.close tree).toList := toList_of_repay hrepay
    rw [under_nil, under_cons, under_cons]
    apply toList_under_congr
    rw [← toList_close_close_of_facing hfacing]
    exact toList_under_congr h [upper]
  | case4 tree frame path hblack near entry far hfacing lower upper hrepay =>
    rw [under_cons, under_cons]
    apply toList_under_congr
    rw [← toList_close_close_of_facing hfacing]
    exact toList_under_congr (toList_push tree lower) [upper]
  | case5 tree frame path hblack repaid events hrepay hfacing =>
    exact toList_under_congr (toList_of_repay hrepay) path
  | case6 tree frame path hblack hrepay place events heq hfacing ih =>
    rw [heq] at ih
    exact ih.trans (toList_under_congr (toList_push tree frame) path)

theorem toList_repairShort (tree : Tree α) (path : Path α) :
    (tree.repairShort path).1.toList = (tree.under path).toList := by
  rw [← toList_settleShort tree path]
  exact toList_under_congr (toList_paint .black _) _

/-- Taking a node out removes its entry and keeps the others in order. -/
theorem toList_unlink (color : Color) (left right : Tree α) (path : Path α) :
    ((unlink color left right path).1.under (unlink color left right path).2.1).toList =
      Path.before path ++ left.toList ++ right.toList ++ Path.after path := by
  unfold unlink
  split
  · simp [toList_under, toList]
  · next c l e r =>
    split
    · next hspine =>
      cases eq_nil_of_spine_eq_nil hspine
      simp [toList_under, toList]
    · next successor spine hspine =>
      -- all frames of the spine miss their left subtree, so nothing lies before the successor
      have hright : right = (successor.close nil).under spine := eq_under_of_spine_eq_cons hspine
      have hbefore : Path.before (successor :: spine) = [] := by
        rw [← hspine, before_spine_left]
        rfl
      have hmem : successor ∈ right.spine .left [] := hspine ▸ List.mem_cons_self
      have hside : successor.side = .left := side_of_mem_spine hmem
      obtain ⟨side, color, entry, sibling⟩ := successor
      simp only at hside
      subst hside
      rw [Path.before] at hbefore
      rw [hright]
      simp [toList_under, hbefore, Frame.close, join, toList]

/-- Erasing a node removes its entry and keeps the others in order. -/
theorem toList_erase (color : Color) (left right : Tree α) (path : Path α) :
    (erase color left right path).1.toList =
      Path.before path ++ left.toList ++ right.toList ++ Path.after path := by
  rw [← toList_unlink color left right path, erase]
  obtain ⟨tree, path, lost⟩ := unlink color left right path
  by_cases hlost : lost = .black
  · simp [hlost, toList_repairShort]
  · simp [hlost]

/-! ## Entries in any order -/

/-- Repairing around a new leaf adds its entry. -/
theorem toList_repairRed_leaf_perm (color : Color) (entry : α) (path : Path α) :
    ((node color nil entry nil).repairRed path).1.toList.Perm
      (entry :: (nil.under path).toList) := by
  simp only [toList_repairRed, toList_under, toList, List.append_nil, List.nil_append]
  -- the repair keeps the entries, so only the new one comes in between
  rw [List.append_assoc]
  exact List.perm_middle

/-- Erasing a node removes its entry. -/
theorem toList_erase_perm (color : Color) (left : Tree α) (entry : α) (right : Tree α)
    (path : Path α) :
    ((node color left entry right).under path).toList.Perm
      (entry :: (erase color left right path).1.toList) := by
  simp only [toList_erase, toList_under, toList, List.append_assoc, List.cons_append]
  rw [← List.append_assoc, ← List.append_assoc]
  exact List.perm_middle

/-- Repairing around a new leaf adds one node. -/
theorem size_repairRed_leaf (color : Color) (entry : α) (path : Path α) :
    ((node color nil entry nil).repairRed path).1.size = (nil.under path).size + 1 := by
  have h := (toList_repairRed_leaf_perm color entry path).length_eq
  rwa [List.length_cons, length_toList, length_toList] at h

/-- Erasing a node leaves one node less. -/
theorem size_erase (color : Color) (left : Tree α) (entry : α) (right : Tree α) (path : Path α) :
    (erase color left right path).1.size + 1 = ((node color left entry right).under path).size := by
  have h := (toList_erase_perm color left entry right path).length_eq
  rw [List.length_cons, length_toList, length_toList] at h
  exact h.symm

end Tree

end RedBlack
