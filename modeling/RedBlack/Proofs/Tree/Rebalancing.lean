import RedBlack.Proofs.Tree.Height
import RedBlack.Proofs.Tree.Repair

/-!
# The Course of a Repair

Which events a repair reports, and in which order. A violation moves towards the root in equal
steps, two levels at a time for a red node under a red parent and one level at a time for a
shortage, and then a bounded number of rotations ends it: the loops do not go on after a
rotation.

* `Event.AfterRecolorings height events` is the course of storing an entry in a tree of a height
  (`afterRecolorings_repairRed`);
* `Event.AfterPushes height events` is that of taking one out (`afterPushes_erase`).

A repair of the first kind rotates at most twice, one of the second at most three times
(`Event.AfterRecolorings.rotations_le`, `Event.AfterPushes.rotations_le`). All of this holds of
coloured trees of any shape, balanced or not.
-/

namespace RedBlack

/-! ## Courses -/

namespace Event

/-- A rotation was made. -/
def isRotation : Event → Bool
  | straightened | grandparentRotated | siblingRotated | nearNephew | farNephew => true
  | _ => false

/-- The number of rotations that were reported. -/
def rotations (events : List Event) : Nat :=
  events.countP isRotation

@[simp]
theorem rotations_nil : rotations [] = 0 := rfl

@[simp]
theorem rotations_cons (event : Event) (events : List Event) :
    rotations (event :: events) = rotations events + if event.isRotation then 1 else 0 :=
  List.countP_cons

@[simp]
theorem rotations_append (events others : List Event) :
    rotations (events ++ others) = rotations events + rotations others :=
  List.countP_append

/-- What may follow the recolourings around a red node under a red parent. -/
def afterRecolorings : List (List Event) :=
  [[], [grandparentRotated], [straightened, grandparentRotated]]

/-- What may follow the steps that push a shortage up: a red sibling is rotated away at most
once, and then its red parent or a red nephew pays. -/
def afterPushes : List (List Event) :=
  [] :: [siblingRotated, deficiencyPushed] :: repayments ++ repayments.map (siblingRotated :: ·)

/-- The course of a repair after an entry was stored in a tree of some height. -/
def AfterRecolorings (height : Nat) (events : List Event) : Prop :=
  ∃ recolorings, ∃ ending ∈ afterRecolorings,
    events = List.replicate recolorings recolored ++ ending ∧ recolorings ≤ height / 2

/-- The course of a repair after an entry was taken out of a tree of some height. -/
def AfterPushes (height : Nat) (events : List Event) : Prop :=
  ∃ pushes, ∃ ending ∈ afterPushes,
    events = List.replicate pushes deficiencyPushed ++ ending ∧
      events.count deficiencyPushed < height

/-- Steps of the same kind that are no rotations count for nothing. -/
theorem rotations_replicate {event : Event} (h : event.isRotation = false) (n : Nat) :
    rotations (List.replicate n event) = 0 := by
  rw [rotations, List.countP_replicate, if_neg (by simp [h])]

/-- After an entry was stored, at most two rotations are made. -/
theorem AfterRecolorings.rotations_le {height : Nat} {events : List Event}
    (h : AfterRecolorings height events) : rotations events ≤ 2 := by
  obtain ⟨n, ending, hending, rfl, -⟩ := h
  have hle : ∀ ending ∈ afterRecolorings, rotations ending ≤ 2 := by decide
  rw [rotations_append, rotations_replicate rfl, Nat.zero_add]
  exact hle ending hending

/-- After an entry was taken out, at most three rotations are made. -/
theorem AfterPushes.rotations_le {height : Nat} {events : List Event}
    (h : AfterPushes height events) : rotations events ≤ 3 := by
  obtain ⟨n, ending, hending, rfl, -⟩ := h
  have hle : ∀ ending ∈ afterPushes, rotations ending ≤ 3 := by decide
  rw [rotations_append, rotations_replicate rfl, Nat.zero_add]
  exact hle ending hending

end Event

namespace Tree

open Event

variable {α β : Type}

/-! ## Red nodes under red parents -/

/-- Rotating at the grandparent is one rotation, or two if the red node hangs on the inside. -/
theorem rotateGrand_mem (tree : Tree α) (parent grand : Frame α) :
    (tree.rotateGrand parent grand).2 ∈ afterRecolorings := by
  unfold rotateGrand
  split
  · show [grandparentRotated] ∈ afterRecolorings
    decide
  · split
    · show [] ∈ afterRecolorings
      decide
    · show [straightened, grandparentRotated] ∈ afterRecolorings
      decide

/-- A red node is recoloured around until a rotation ends its way up; every recolouring takes two
frames of the path. -/
theorem settleRed_events (tree : Tree α) (path : Path α) :
    ∃ recolorings, ∃ ending ∈ afterRecolorings,
      (tree.settleRed path).2 = List.replicate recolorings .recolored ++ ending ∧
        2 * recolorings ≤ path.length := by
  -- the induction is on the path, two frames at a time
  fun_induction settleRed tree path with
  | case1 tree parent grand path hred huncle settled events heq ih =>
    rw [heq] at ih
    obtain ⟨n, ending, hending, rfl, hle⟩ := ih
    refine ⟨n + 1, ending, hending, rfl, ?_⟩
    rw [List.length_cons, List.length_cons]
    omega
  | case2 tree parent grand path hred huncle rotated events heq =>
    have hmem := rotateGrand_mem tree parent grand
    rw [heq] at hmem
    exact ⟨0, events, hmem, rfl, Nat.zero_le _⟩
  | case3 => exact ⟨0, [], by decide, rfl, Nat.zero_le _⟩
  | case4 => exact ⟨0, [], by decide, rfl, Nat.zero_le _⟩

/-- The repair around a node that was put into an empty place of a tree. -/
theorem afterRecolorings_repairRed (leaf : Tree α) (path : Path α) :
    AfterRecolorings (nil.under path).height (leaf.repairRed path).2 := by
  obtain ⟨n, ending, hending, hevents, hle⟩ := settleRed_events leaf path
  refine ⟨n, ending, hending, hevents, ?_⟩
  have hheight : path.length ≤ (nil.under path).height := length_add_height_le nil path
  omega

/-! ## Places that are one black node short -/

/-- A repayment pushes nothing up. -/
theorem count_of_mem_repayments {events : List Event} (h : events ∈ repayments) :
    events.count .deficiencyPushed = 0 := by
  revert events
  decide

/-- A shortage is pushed up until a red node takes it, or a rotation at the sibling ends its way
up; a shortage that is pushed up takes one frame of the path. Below a red sibling one push is the
last, since the parent is red then. -/
theorem settleShort_events (tree : Tree α) (path : Path α) :
    ∃ pushes, ∃ ending ∈ afterPushes,
      (tree.settleShort path).2 = List.replicate pushes .deficiencyPushed ++ ending ∧
        (tree.settleShort path).2.count .deficiencyPushed ≤ path.length := by
  -- only the last case goes on, one frame further up
  fun_induction settleShort tree path with
  | case1 => exact ⟨0, [], by decide, rfl, Nat.zero_le _⟩
  | case2 => exact ⟨0, [], by decide, rfl, Nat.zero_le _⟩
  | case3 tree frame path hblack near entry far hfacing lower upper repaid events hrepay =>
    have hmem := mem_of_repay hrepay
    refine ⟨0, .siblingRotated :: events, ?_, rfl, ?_⟩
    · exact List.mem_append_right _ (List.mem_map.2 ⟨events, hmem, rfl⟩)
    · rw [List.count_cons_of_ne (by decide), count_of_mem_repayments hmem]
      exact Nat.zero_le _
  | case4 tree frame path hblack near entry far hfacing lower upper hrepay =>
    refine ⟨0, [.siblingRotated, .deficiencyPushed], by decide, rfl, ?_⟩
    rw [List.length_cons]
    exact Nat.succ_le_succ (Nat.zero_le _)
  | case5 tree frame path hblack repaid events hrepay hfacing =>
    have hmem := mem_of_repay hrepay
    refine ⟨0, events, ?_, rfl, ?_⟩
    · exact List.mem_cons_of_mem _ (List.mem_cons_of_mem _ (List.mem_append_left _ hmem))
    · rw [count_of_mem_repayments hmem]
      exact Nat.zero_le _
  | case6 tree frame path hblack hrepay place events heq hfacing ih =>
    rw [heq] at ih
    obtain ⟨n, ending, hending, hevents, hle⟩ := ih
    refine ⟨n + 1, ending, hending, congrArg (Event.deficiencyPushed :: ·) hevents, ?_⟩
    rw [List.count_cons_self, List.length_cons]
    exact Nat.succ_le_succ hle

/-- The place where a black node may be missing has fewer frames above it than the tree has
levels: the node that fills the place was on a level of its own. -/
theorem length_unlink_lt (color : Color) (left : Tree α) (entry : α) (right : Tree α)
    (path : Path α) :
    (unlink color left right path).2.1.length <
      ((node color left entry right).under path).height := by
  have hheight := length_add_height_le (node color left entry right) path
  rw [height] at hheight
  unfold unlink
  split
  · show path.length < _
    omega
  · split
    · show path.length < _
      omega
    · next successor spine hspine =>
      -- the successor lies on the lowest level of its spine
      have hright : right = (successor.close nil).under spine := eq_under_of_spine_eq_cons hspine
      have hspine := length_add_height_le (successor.close nil) spine
      rw [← hright, Frame.close, height_join] at hspine
      rw [List.length_append, List.length_cons]
      omega

/-- The repair after a node was taken out of a tree. -/
theorem afterPushes_erase (color : Color) (left : Tree α) (entry : α) (right : Tree α)
    (path : Path α) :
    AfterPushes ((node color left entry right).under path).height
      (erase color left right path).2 := by
  have hlength := length_unlink_lt color left entry right path
  rw [erase]
  generalize unlink color left right path = place at hlength ⊢
  obtain ⟨tree, above, lost⟩ := place
  cases lost with
  | red => exact ⟨0, [], by decide, rfl, Nat.zero_lt_of_lt hlength⟩
  | black =>
    obtain ⟨n, ending, hending, hevents, hle⟩ := settleShort_events tree above
    exact ⟨n, ending, hending, hevents, Nat.lt_of_le_of_lt hle hlength⟩

end Tree

end RedBlack
