import RedBlack.Proofs.Tree.Repair
import RedBlack.Proofs.Tree.Search

/-!
# Trees in a Mirror

The repairs are written over a side, so they cannot tell a tree from its reflection: around the
reflected place, each of them does the same with left and right exchanged, and reports the same
events (`repairRed_reflect`, `repairShort_reflect`). A descent in the reflected tree turns the
other way at every node if it is answered the other way (`seek_reflect`).

Taking out a node with two children is not symmetric, since it is always the successor that
takes its place. A node without a child on one side just makes way for its other child, and
this is (`eraseFrame_reflect`).
-/

namespace RedBlack

theorem Side.opposite_inj {side other : Side} :
    side.opposite = other.opposite ↔ side = other := by
  cases side <;> cases other <;> decide

namespace Tree

variable {σ α β : Type}

/-! ## Trees, frames and paths -/

@[simp]
theorem color_reflect (tree : Tree α) : tree.reflect.color = tree.color := by
  cases tree <;> rfl

@[simp]
theorem paint_reflect (new : Color) (tree : Tree α) :
    tree.reflect.paint new = (tree.paint new).reflect := by
  cases tree <;> rfl

@[simp]
theorem size_reflect (tree : Tree α) : tree.reflect.size = tree.size := by
  rw [← length_toList, toList_reflect, List.length_reverse, length_toList]

theorem reflect_map (f : α → β) (tree : Tree α) : (tree.map f).reflect = tree.reflect.map f := by
  induction tree with
  | nil => rfl
  | node color left entry right ihl ihr => rw [map, reflect, ihl, ihr, reflect, map]

theorem join_reflect (side : Side) (color : Color) (near : Tree α) (entry : α) (far : Tree α) :
    join side.opposite color near.reflect entry far.reflect =
      (join side color near entry far).reflect := by
  cases side <;> rfl

/-- The reflection shows itself from the other side as the tree does. -/
theorem facing_reflect_of_node {side : Side} {tree near far : Tree α} {color : Color} {entry : α}
    (h : tree.facing side = node color near entry far) :
    tree.reflect.facing side.opposite = node color near.reflect entry far.reflect := by
  rw [eq_join_of_facing h]
  cases side <;> rfl

theorem facing_reflect_of_nil {side : Side} {tree : Tree α} (h : tree.facing side = nil) :
    tree.reflect.facing side.opposite = nil := by
  rw [eq_nil_of_facing h]
  cases side <;> rfl

/-- The node of a frame seen in a mirror. -/
def Frame.reflect (frame : Frame α) : Frame α :=
  { frame with side := frame.side.opposite, sibling := frame.sibling.reflect }

@[simp]
theorem Frame.side_reflect (frame : Frame α) : frame.reflect.side = frame.side.opposite := rfl

@[simp]
theorem Frame.color_reflect (frame : Frame α) : frame.reflect.color = frame.color := rfl

@[simp]
theorem Frame.sibling_reflect (frame : Frame α) :
    frame.reflect.sibling = frame.sibling.reflect := rfl

theorem Frame.close_reflect (frame : Frame α) (tree : Tree α) :
    frame.reflect.close tree.reflect = (frame.close tree).reflect :=
  join_reflect ..

/-- A path seen in a mirror. -/
abbrev Path.reflect (path : Path α) : Path α :=
  List.map Frame.reflect path

theorem under_reflect (tree : Tree α) (path : Path α) :
    tree.reflect.under (Path.reflect path) = (tree.under path).reflect := by
  induction path generalizing tree with
  | nil => rfl
  | cons frame path ih =>
    rw [Path.reflect, List.map_cons, under_cons, Frame.close_reflect]
    exact ih (frame.close tree)

theorem spine_reflect (side : Side) (tree : Tree α) (path : Path α) :
    tree.reflect.spine side.opposite (Path.reflect path) =
      Path.reflect (tree.spine side path) := by
  induction tree generalizing path with
  | nil => rfl
  | node color left entry right ihl ihr =>
    cases side with
    | left => exact ihl (⟨.left, color, entry, right⟩ :: path)
    | right => exact ihr (⟨.right, color, entry, left⟩ :: path)

/-! ## Red nodes under red parents -/

theorem rotateGrand_reflect (tree : Tree α) (parent grand : Frame α) :
    tree.reflect.rotateGrand parent.reflect grand.reflect =
      ((tree.rotateGrand parent grand).1.reflect, (tree.rotateGrand parent grand).2) := by
  rw [rotateGrand, rotateGrand]
  -- two nodes hang from the same side in the mirror exactly if they do outside of it
  simp only [Frame.reflect, Side.opposite_inj]
  by_cases hside : parent.side = grand.side
  · simp only [if_pos hside, ← join_reflect]
  · simp only [if_neg hside]
    cases hfacing : tree.facing grand.side with
    | nil =>
      simp only [facing_reflect_of_nil hfacing, ← Frame.close_reflect]
      rfl
    | node color near entry far =>
      simp only [facing_reflect_of_node hfacing, ← join_reflect]

theorem settleRed_reflect (tree : Tree α) (path : Path α) :
    tree.reflect.settleRed (Path.reflect path) =
      ((tree.settleRed path).1.reflect, (tree.settleRed path).2) := by
  fun_induction settleRed tree path with
  | case1 tree parent grand path hred huncle settled events heq ih =>
    rw [heq, ← Frame.close_reflect, ← Frame.close_reflect] at ih
    simp only [Frame.reflect, ← paint_reflect] at ih
    simp only [Path.reflect, List.map_cons, settleRed, Frame.reflect, color_reflect, hred, huncle,
      if_true, ih]
  | case2 tree parent grand path hred huncle rotated events heq =>
    have hrotate := rotateGrand_reflect tree parent grand
    rw [heq] at hrotate
    simp only [Path.reflect, List.map_cons, settleRed, Frame.color_reflect, Frame.sibling_reflect,
      color_reflect, hred, huncle, if_true, if_false, hrotate, under_reflect]
  | case3 tree parent grand path hred =>
    simp only [Path.reflect, List.map_cons, settleRed, Frame.color_reflect, hred, if_false]
    exact congrArg (·, _) (under_reflect tree (parent :: grand :: path))
  | case4 tree path hpath =>
    rcases path with _ | ⟨parent, _ | ⟨grand, path⟩⟩
    · rfl
    · exact congrArg (·, _) (under_reflect tree [parent])
    · exact absurd rfl (hpath parent grand path)

theorem repairRed_reflect (tree : Tree α) (path : Path α) :
    tree.reflect.repairRed (Path.reflect path) =
      ((tree.repairRed path).1.reflect, (tree.repairRed path).2) := by
  simp only [repairRed, settleRed_reflect, paint_reflect]

/-! ## Places that are one black node short -/

theorem repay_reflect (tree : Tree α) (frame : Frame α) :
    tree.reflect.repay frame.reflect =
      (tree.repay frame).map fun (repaid, events) => (repaid.reflect, events) := by
  simp only [repay, Frame.reflect]
  cases hfacing : frame.sibling.facing frame.side with
  | nil =>
    rw [facing_reflect_of_nil hfacing]
    rfl
  | node color near entry far =>
    simp only [facing_reflect_of_node hfacing, color_reflect]
    by_cases hfar : far.color = .red
    · simp only [if_pos hfar, Option.map_some, ← join_reflect, paint_reflect]
    · simp only [if_neg hfar]
      rcases hnear : near.facing frame.side with _ | ⟨_ | _, inner, middle, outer⟩
      · rw [facing_reflect_of_nil hnear]
        rfl
      · simp only [facing_reflect_of_node hnear, Option.map_some, ← join_reflect]
      · rw [facing_reflect_of_node hnear]
        rfl

theorem push_reflect (tree : Tree α) (frame : Frame α) :
    tree.reflect.push frame.reflect = (tree.push frame).reflect := by
  rw [push, push, ← Frame.close_reflect]
  simp only [Frame.reflect, paint_reflect]

theorem settleShort_reflect (tree : Tree α) (path : Path α) :
    tree.reflect.settleShort (Path.reflect path) =
      (((tree.settleShort path).1.1.reflect, Path.reflect (tree.settleShort path).1.2),
        (tree.settleShort path).2) := by
  fun_induction settleShort tree path with
  | case1 => rfl
  | case2 tree frame path hred =>
    simp only [Path.reflect, List.map_cons, settleShort, color_reflect, hred, if_true]
  | case3 tree frame path hblack near entry far hfacing lower upper repaid events hrepay =>
    -- the frame is rotated below its red sibling, on the other side in the mirror
    have hlower := (repay_reflect tree lower).trans (congrArg _ hrepay)
    have hunder := under_reflect repaid (upper :: path)
    have hmirror := facing_reflect_of_node hfacing
    simp only [lower, Frame.reflect, Option.map_some] at hlower
    simp only [Path.reflect, List.map_cons, settleShort, Frame.reflect, color_reflect, hblack,
      if_false, hmirror, hlower, ← hunder, upper, List.map_nil]
  | case4 tree frame path hblack near entry far hfacing lower upper hrepay =>
    have hlower := (repay_reflect tree lower).trans (congrArg _ hrepay)
    have hpush := push_reflect tree lower
    have hmirror := facing_reflect_of_node hfacing
    simp only [lower, Frame.reflect, Option.map_none] at hlower hpush
    simp only [Path.reflect, List.map_cons, settleShort, Frame.reflect, color_reflect, hblack,
      if_false, hmirror, hlower, hpush, upper, lower]
  | case5 tree frame path hblack repaid events hrepay hfacing =>
    have hframe := (repay_reflect tree frame).trans (congrArg _ hrepay)
    simp only [Path.reflect, List.map_cons, settleShort, color_reflect, hblack, if_false,
      Frame.side_reflect, Frame.sibling_reflect, hframe, Option.map_some, under_reflect]
    rcases h : frame.sibling.facing frame.side with _ | ⟨_ | _, near, entry, far⟩
    · rw [facing_reflect_of_nil h]
      rfl
    · exact absurd h (hfacing near entry far)
    · rw [facing_reflect_of_node h]
      rfl
  | case6 tree frame path hblack hrepay place events heq hfacing ih =>
    have hframe := (repay_reflect tree frame).trans (congrArg _ hrepay)
    rw [heq] at ih
    simp only [Path.reflect, List.map_cons, settleShort, color_reflect, hblack, if_false,
      Frame.side_reflect, Frame.sibling_reflect, hframe, Option.map_none, push_reflect, ih]
    rcases h : frame.sibling.facing frame.side with _ | ⟨_ | _, near, entry, far⟩
    · rw [facing_reflect_of_nil h]
    · exact absurd h (hfacing near entry far)
    · rw [facing_reflect_of_node h]

theorem repairShort_reflect (tree : Tree α) (path : Path α) :
    tree.reflect.repairShort (Path.reflect path) =
      ((tree.repairShort path).1.reflect, (tree.repairShort path).2) := by
  simp only [repairShort, settleShort_reflect, paint_reflect, under_reflect]

/-! ## Nodes without a child on one side -/

/-- A node without a child on one side makes way for its other child. -/
theorem unlink_frame (frame : Frame α) (path : Path α) :
    unlink frame.color (frame.left nil) (frame.right nil) path =
      (frame.sibling, path, frame.color) := by
  obtain ⟨side, color, entry, sibling⟩ := frame
  cases side with
  | left => rfl
  | right => cases sibling <;> rfl

theorem eraseFrame_reflect (frame : Frame α) (path : Path α) :
    erase frame.reflect.color (frame.reflect.left nil) (frame.reflect.right nil)
        (Path.reflect path) =
      ((erase frame.color (frame.left nil) (frame.right nil) path).1.reflect,
        (erase frame.color (frame.left nil) (frame.right nil) path).2) := by
  rw [erase, erase, unlink_frame, unlink_frame]
  -- only a black node leaves a shortage
  by_cases hcolor : frame.color = .black
  · simp only [Frame.reflect, if_pos hcolor, repairShort_reflect]
  · simp only [Frame.reflect, if_neg hcolor, under_reflect]

/-! ## Descents -/

/-- A descent that is answered the other way leads to the reflected place. -/
theorem seek_reflect {ask other : α → σ → Ordering × σ}
    (h : ∀ entry memory, other entry memory = ((ask entry memory).1.swap, (ask entry memory).2))
    (tree : Tree α) (path : Path α) (memory : σ) :
    tree.reflect.seek other (Path.reflect path) memory =
      let ((tree, path), memory) := tree.seek ask path memory
      ((tree.reflect, Path.reflect path), memory) := by
  induction tree generalizing path memory with
  | nil => rfl
  | node color left entry right ihl ihr =>
    rw [reflect, seek, seek, h]
    rcases ask entry memory with ⟨_ | _ | _, memory⟩
    · exact ihl (⟨.left, color, entry, right⟩ :: path) memory
    · rfl
    · exact ihr (⟨.right, color, entry, left⟩ :: path) memory

end Tree

end RedBlack
