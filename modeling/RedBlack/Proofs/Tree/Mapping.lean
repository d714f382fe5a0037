import RedBlack.Proofs.Tree.Balance
import RedBlack.Proofs.Tree.Search

/-!
# Mapping Trees

The repairs and walks of this library look at the shape and the colours of a tree, and at its
entries only through the answers of whoever is asked on a descent. So all of them can be done
before or after a function is applied to every entry, with the same events: each lemma
`op_map` here says this of one `op`.
-/

namespace RedBlack

namespace Tree

variable {σ α β : Type} (f : α → β)

/-! ## Trees, frames and paths -/

@[simp]
theorem map_nil : (nil : Tree α).map f = nil := rfl

@[simp]
theorem map_node (color : Color) (left : Tree α) (entry : α) (right : Tree α) :
    (node color left entry right).map f = node color (left.map f) (f entry) (right.map f) := rfl

/-- One function after the other. -/
theorem map_map {γ : Type} (g : β → γ) (tree : Tree α) :
    (tree.map f).map g = tree.map (g ∘ f) := by
  induction tree with
  | nil => rfl
  | node color left entry right ihl ihr => simp only [map, ihl, ihr, Function.comp_apply]

@[simp]
theorem size_map (tree : Tree α) : (tree.map f).size = tree.size := by
  induction tree with
  | nil => rfl
  | node color left entry right ihl ihr => simp only [map, size, ihl, ihr]

@[simp]
theorem postorder_map (tree : Tree α) : (tree.map f).postorder = tree.postorder.map f := by
  induction tree with
  | nil => rfl
  | node color left entry right ihl ihr =>
    simp only [map, postorder, ihl, ihr, List.map_append, List.map_cons, List.map_nil]

@[simp]
theorem color_map (tree : Tree α) : (tree.map f).color = tree.color := by
  cases tree <;> rfl

@[simp]
theorem paint_map (new : Color) (tree : Tree α) :
    (tree.map f).paint new = (tree.paint new).map f := by
  cases tree <;> rfl

theorem join_map (side : Side) (color : Color) (near : Tree α) (entry : α) (far : Tree α) :
    join side color (near.map f) (f entry) (far.map f) =
      (join side color near entry far).map f := by
  cases side <;> rfl

@[simp]
theorem facing_map (side : Side) (tree : Tree α) :
    (tree.map f).facing side = (tree.facing side).map f := by
  cases side <;> cases tree <;> rfl

theorem Balanced.map {tree : Tree α} {c : Color} {n : Nat} (h : Balanced tree c n) :
    Balanced (tree.map f) c n := by
  induction h with
  | nil => exact .nil
  | red _ _ ihl ihr => exact .red ihl ihr
  | black _ _ ihl ihr => exact .black ihl ihr

/-- Whether a tree is balanced does not depend on its entries. -/
theorem balanced_map_iff {tree : Tree α} {c : Color} {n : Nat} :
    Balanced (tree.map f) c n ↔ Balanced tree c n := by
  refine ⟨fun h => ?_, fun h => h.map f⟩
  induction tree generalizing c n with
  | nil =>
    cases h
    exact .nil
  | node color left entry right ihl ihr =>
    cases h with
    | red hleft hright => exact .red (ihl hleft) (ihr hright)
    | black hleft hright => exact .black (ihl hleft) (ihr hright)

/-- Apply a function to all entries of a frame. -/
def Frame.map (frame : Frame α) : Frame β :=
  { side := frame.side, color := frame.color, entry := f frame.entry
    sibling := frame.sibling.map f }

@[simp]
theorem Frame.side_map (frame : Frame α) : (frame.map f).side = frame.side := rfl

@[simp]
theorem Frame.color_map (frame : Frame α) : (frame.map f).color = frame.color := rfl

@[simp]
theorem Frame.entry_map (frame : Frame α) : (frame.map f).entry = f frame.entry := rfl

@[simp]
theorem Frame.sibling_map (frame : Frame α) :
    (frame.map f).sibling = frame.sibling.map f := rfl

/-- Apply a function to all entries of a path. -/
abbrev Path.map (path : Path α) : Path β :=
  List.map (Frame.map f) path

theorem Frame.close_map (frame : Frame α) (tree : Tree α) :
    (frame.map f).close (tree.map f) = (frame.close tree).map f :=
  join_map ..

theorem Frame.left_map (frame : Frame α) (tree : Tree α) :
    (frame.map f).left (tree.map f) = (frame.left tree).map f := by
  rcases frame with ⟨_ | _, _, _, _⟩ <;> rfl

theorem Frame.right_map (frame : Frame α) (tree : Tree α) :
    (frame.map f).right (tree.map f) = (frame.right tree).map f := by
  rcases frame with ⟨_ | _, _, _, _⟩ <;> rfl

theorem under_map (tree : Tree α) (path : Path α) :
    (tree.map f).under (path.map f) = (tree.under path).map f := by
  induction path generalizing tree with
  | nil => rfl
  | cons frame path ih =>
    rw [Path.map, List.map_cons, under_cons, Frame.close_map]
    exact ih (frame.close tree)

/-- Two trees differ in their entries alone. -/
def Alike (tree : Tree α) (other : Tree β) : Prop :=
  tree.map (fun _ => ()) = other.map fun _ => ()

/-- Putting another entry into a frame changes nothing else. -/
theorem alike_under_replace (tree : Tree α) (frame : Frame α) (entry : α) (path : Path α) :
    (tree.under ({ frame with entry } :: path)).Alike (tree.under (frame :: path)) := by
  rw [Alike, ← under_map, ← under_map]
  rfl

namespace Alike

variable {tree : Tree α} {other : Tree β} (h : tree.Alike other)

include h

theorem size_eq : tree.size = other.size := by
  rw [← size_map (fun _ => ()) tree, h, size_map]

theorem balanced_iff {c : Color} {n : Nat} : Balanced tree c n ↔ Balanced other c n := by
  rw [← balanced_map_iff fun _ => (), h, balanced_map_iff]

end Alike

theorem spine_map (side : Side) (tree : Tree α) (path : Path α) :
    (tree.map f).spine side (path.map f) = (tree.spine side path).map f := by
  induction tree generalizing path with
  | nil => rfl
  | node color left entry right ihl ihr =>
    cases side with
    | left => exact ihl (⟨.left, color, entry, right⟩ :: path)
    | right => exact ihr (⟨.right, color, entry, left⟩ :: path)

namespace Path

theorem after_map (path : Path α) : after (path.map f) = (after path).map f := by
  induction path with
  | nil => rfl
  | cons frame path ih =>
    obtain ⟨_ | _, color, entry, sibling⟩ := frame
    · simp only [map, List.map_cons, Frame.map, after, toList_map, List.map_append]
      exact congrArg _ ih
    · exact ih

theorem turns_map (path : Path α) : turns (path.map f) = (turns path).map f := by
  induction path with
  | nil => rfl
  | cons frame path ih =>
    obtain ⟨_ | _, color, entry, sibling⟩ := frame
    · exact congrArg (f entry :: ·) ih
    · exact ih

theorem climb_map (side : Side) (path : Path α) (tree : Tree α) :
    climb side (path.map f) (tree.map f) =
      (climb side path tree).map fun (below, frame, up) =>
        (below.map f, frame.map f, Path.map f up) := by
  induction path generalizing tree with
  | nil => rfl
  | cons frame path ih =>
    rw [map, List.map_cons, climb, climb]
    by_cases hside : frame.side = side
    · rw [if_pos hside]
      exact if_pos hside
    · rw [if_neg hside, Frame.close_map]
      exact (if_neg hside).trans (ih (frame.close tree))

theorem pass_map (below : Tree α) (frame : Frame α) (entry : α) (path : Path α) :
    pass (below.map f) (frame.map f) (f entry) (path.map f) =
      (pass below frame entry path).map f :=
  spine_map f .left frame.sibling (⟨.right, frame.color, entry, below⟩ :: path)

end Path

/-! ## Repairs -/

theorem rotateGrand_map (tree : Tree α) (parent grand : Frame α) :
    (tree.map f).rotateGrand (parent.map f) (grand.map f) =
      ((tree.rotateGrand parent grand).1.map f, (tree.rotateGrand parent grand).2) := by
  rw [rotateGrand, rotateGrand]
  by_cases hside : parent.side = grand.side
  · refine (if_pos hside).trans ?_
    rw [if_pos hside]
    simp only [← join_map]
    rfl
  · refine (if_neg hside).trans ?_
    rw [if_neg hside, Frame.map, facing_map]
    cases tree.facing grand.side with
    | nil => simp only [map_nil, ← Frame.close_map]; rfl
    | node color near entry far => simp only [map_node, ← join_map]; rfl

theorem settleRed_map (tree : Tree α) (path : Path α) :
    (tree.map f).settleRed (path.map f) =
      ((tree.settleRed path).1.map f, (tree.settleRed path).2) := by
  fun_induction settleRed tree path with
  | case1 tree parent grand path hred huncle settled events heq ih =>
    rw [heq, ← Frame.close_map, ← Frame.close_map] at ih
    simp only [Frame.map, ← paint_map] at ih
    simp only [Path.map, List.map_cons, settleRed, Frame.map, color_map, hred, huncle, if_true, ih]
  | case2 tree parent grand path hred huncle rotated events heq =>
    have hrotate := rotateGrand_map f tree parent grand
    rw [heq] at hrotate
    simp only [Path.map, List.map_cons, settleRed, Frame.color_map, Frame.sibling_map, color_map,
      hred, huncle, if_true, if_false, hrotate, under_map]
  | case3 tree parent grand path hred =>
    simp only [Path.map, List.map_cons, settleRed, Frame.color_map, hred, if_false]
    exact congrArg (·, _) (under_map f tree (parent :: grand :: path))
  | case4 tree path hpath =>
    rcases path with _ | ⟨parent, _ | ⟨grand, path⟩⟩
    · rfl
    · exact congrArg (·, _) (under_map f tree [parent])
    · exact absurd rfl (hpath parent grand path)

theorem repairRed_map (tree : Tree α) (path : Path α) :
    (tree.map f).repairRed (path.map f) =
      ((tree.repairRed path).1.map f, (tree.repairRed path).2) := by
  simp only [repairRed, settleRed_map, paint_map]

theorem repay_map (tree : Tree α) (frame : Frame α) :
    (tree.map f).repay (frame.map f) =
      (tree.repay frame).map fun (repaid, events) => (repaid.map f, events) := by
  simp only [repay, Frame.map, facing_map]
  cases frame.sibling.facing frame.side with
  | nil => rfl
  | node color near entry far =>
    simp only [map_node, color_map, facing_map]
    by_cases hfar : far.color = .red
    · simp only [if_pos hfar, Option.map_some, ← join_map, paint_map]
    · simp only [if_neg hfar]
      rcases near.facing frame.side with _ | ⟨_ | _, inner, middle, outer⟩
      · rfl
      · simp only [map_node, Option.map_some, ← join_map]
      · rfl

theorem push_map (tree : Tree α) (frame : Frame α) :
    (tree.map f).push (frame.map f) = (tree.push frame).map f := by
  rw [push, push, ← Frame.close_map]
  simp only [Frame.map, paint_map]

theorem settleShort_map (tree : Tree α) (path : Path α) :
    (tree.map f).settleShort (path.map f) =
      (((tree.settleShort path).1.1.map f, (tree.settleShort path).1.2.map f),
        (tree.settleShort path).2) := by
  fun_induction settleShort tree path with
  | case1 => rfl
  | case2 tree frame path hred =>
    simp only [Path.map, List.map_cons, settleShort, color_map, hred, if_true]
  | case3 tree frame path hblack near entry far hfacing lower upper repaid events hrepay =>
    -- the red sibling is above the place afterwards
    have hlower := (repay_map f tree lower).trans (congrArg _ hrepay)
    have hunder := under_map f repaid (upper :: path)
    simp only [lower, Frame.map, Option.map_some] at hlower
    simp only [Path.map, List.map_cons, settleShort, Frame.map, color_map, hblack, if_false,
      facing_map, hfacing, map_node, hlower, ← hunder, upper, List.map_nil]
  | case4 tree frame path hblack near entry far hfacing lower upper hrepay =>
    have hlower := (repay_map f tree lower).trans (congrArg _ hrepay)
    have hpush := push_map f tree lower
    simp only [lower, Frame.map, Option.map_none] at hlower hpush
    simp only [Path.map, List.map_cons, settleShort, Frame.map, color_map, hblack, if_false,
      facing_map, hfacing, map_node, hlower, hpush, upper, lower]
  | case5 tree frame path hblack repaid events hrepay hfacing =>
    have hframe := (repay_map f tree frame).trans (congrArg _ hrepay)
    simp only [Path.map, List.map_cons, settleShort, color_map, hblack, if_false, Frame.side_map,
      Frame.sibling_map, facing_map, hframe, Option.map_some, under_map]
    rcases h : frame.sibling.facing frame.side with _ | ⟨_ | _, near, entry, far⟩
    · rfl
    · exact absurd h (hfacing near entry far)
    · rfl
  | case6 tree frame path hblack hrepay place events heq hfacing ih =>
    have hframe := (repay_map f tree frame).trans (congrArg _ hrepay)
    rw [heq] at ih
    simp only [Path.map, List.map_cons, settleShort, color_map, hblack, if_false, Frame.side_map,
      Frame.sibling_map, facing_map, hframe, Option.map_none, push_map, ih]
    rcases h : frame.sibling.facing frame.side with _ | ⟨_ | _, near, entry, far⟩
    · rfl
    · exact absurd h (hfacing near entry far)
    · rfl

theorem repairShort_map (tree : Tree α) (path : Path α) :
    (tree.map f).repairShort (path.map f) =
      ((tree.repairShort path).1.map f, (tree.repairShort path).2) := by
  simp only [repairShort, settleShort_map, paint_map, under_map]

theorem unlink_map (color : Color) (left right : Tree α) (path : Path α) :
    unlink color (left.map f) (right.map f) (path.map f) =
      ((unlink color left right path).1.map f, (unlink color left right path).2.1.map f,
        (unlink color left right path).2.2) := by
  cases left with
  | nil => rfl
  | node c l e r =>
    have hspine := spine_map f .left right []
    rw [Path.map, List.map_nil] at hspine
    simp only [map_node, unlink, hspine]
    rcases right.spine .left [] with _ | ⟨successor, spine⟩
    · rfl
    · simp only [Path.map, List.map_append, List.map_cons]
      rfl

theorem erase_map (color : Color) (left right : Tree α) (path : Path α) :
    erase color (left.map f) (right.map f) (path.map f) =
      ((erase color left right path).1.map f, (erase color left right path).2) := by
  rw [erase, erase, unlink_map]
  obtain ⟨tree, path, lost⟩ := unlink color left right path
  cases lost with
  | red => exact congrArg (·, _) (under_map f tree path)
  | black => exact repairShort_map f tree path

/-! ## Descents -/

variable (ask : β → σ → Ordering × σ)

theorem seek_map (tree : Tree α) (path : Path α) (memory : σ) :
    (tree.map f).seek ask (path.map f) memory =
      let ((tree, path), memory) := tree.seek (fun entry => ask (f entry)) path memory
      ((tree.map f, path.map f), memory) := by
  induction tree generalizing path memory with
  | nil => rfl
  | node color left entry right ihl ihr =>
    rw [map_node, seek, seek]
    rcases ask (f entry) memory with ⟨_ | _ | _, memory⟩
    · exact ihl (⟨.left, color, entry, right⟩ :: path) memory
    · rfl
    · exact ihr (⟨.right, color, entry, left⟩ :: path) memory

theorem trail_map (tree : Tree α) (path : Path α) (memory : σ) :
    (tree.map f).trail ask (path.map f) memory =
      let (path, memory) := tree.trail (fun entry => ask (f entry)) path memory
      (path.map f, memory) := by
  induction tree generalizing path memory with
  | nil => rfl
  | node color left entry right ihl ihr =>
    rw [map_node, trail, trail]
    rcases ask (f entry) memory with ⟨_ | _ | _, memory⟩
    · exact ihl (⟨.left, color, entry, right⟩ :: path) memory
    · exact ihr (⟨.right, color, entry, left⟩ :: path) memory
    · exact ihr (⟨.right, color, entry, left⟩ :: path) memory

end Tree

end RedBlack
