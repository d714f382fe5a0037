import Mathlib.Analysis.SpecialFunctions.Log.Base
import RedBlack.Proofs.Tree.Balance

/-!
# Height

The height of a tree is the number of nodes on the longest path from its root to a leaf
(`isGreatest_height`). In a balanced tree every path crosses the same number of black nodes
(`Balanced.countP_black`), and a tree in which they do so is balanced if its red nodes have black
children (`balanced_of_countP_black`). At least half of the nodes on a path are black, and a path
with `n` black nodes makes room for `2 ^ n` empty places; together, the height is at most twice
the logarithm of the number of empty places (`Balanced.two_pow_height_le`, `le_two_mul_logb`).
-/

namespace RedBlack

namespace Tree

variable {α : Type}

/-! ## Longest paths -/

/-- Some leaf lies on a path of `length` nodes from the root, itself included. -/
def LeafAt (tree : Tree α) (length : Nat) : Prop :=
  ∃ (path : Path α) (color : Color) (entry : α),
    (node color nil entry nil).under path = tree ∧ path.length + 1 = length

theorem height_join (side : Side) (color : Color) (near : Tree α) (entry : α) (far : Tree α) :
    (join side color near entry far).height = max near.height far.height + 1 := by
  cases side with
  | left => rfl
  | right => exact congrArg (· + 1) (Nat.max_comm ..)

/-- Every frame above a place adds a level. -/
theorem length_add_height_le (tree : Tree α) (path : Path α) :
    path.length + tree.height ≤ (tree.under path).height := by
  induction path generalizing tree with
  | nil => simp
  | cons frame path ih =>
    have hclose : tree.height + 1 ≤ (frame.close tree).height := by
      rw [Frame.close, height_join]
      omega
    have h := ih (frame.close tree)
    rw [under_cons, List.length_cons]
    omega

/-- A path turns left at most as often as the tree has levels. -/
theorem Path.length_turns_le (path : Path α) :
    (Path.turns path).length ≤ (nil.under path).height := by
  have hturns := (Path.turns_sublist path).length_le
  have hheight := length_add_height_le nil path
  rw [List.length_map] at hturns
  omega

/-- A leaf below one side of a node is one of the node, one level further down. -/
theorem LeafAt.join {near : Tree α} {length : Nat} (h : LeafAt near length) (side : Side)
    (color : Color) (entry : α) (far : Tree α) :
    LeafAt (join side color near entry far) (length + 1) := by
  obtain ⟨path, leafColor, leafEntry, rfl, rfl⟩ := h
  refine ⟨path ++ [⟨side, color, entry, far⟩], leafColor, leafEntry, ?_, ?_⟩
  · rw [under_append]
    rfl
  · rw [List.length_append, List.length_singleton]

/-- The taller subtree of a node holds a leaf on the lowest level. -/
theorem leafAt_height {tree : Tree α} (h : tree ≠ nil) : LeafAt tree tree.height := by
  induction tree with
  | nil => exact absurd rfl h
  | node color left entry right ihl ihr =>
    rw [height]
    rcases Nat.le_total right.height left.height with hle | hle
    · rw [Nat.max_eq_left hle]
      cases left with
      | nil =>
        -- neither side holds a node
        cases right with
        | nil => exact ⟨[], color, entry, rfl, rfl⟩
        | node => exact absurd hle (Nat.not_succ_le_zero _)
      | node => exact (ihl nofun).join .left color entry right
    · rw [Nat.max_eq_right hle]
      cases right with
      | nil =>
        cases left with
        | nil => exact ⟨[], color, entry, rfl, rfl⟩
        | node => exact absurd hle (Nat.not_succ_le_zero _)
      | node => exact (ihr nofun).join .right color entry left

/-- The height is the number of nodes on the longest path from the root to a leaf. -/
theorem isGreatest_height {tree : Tree α} (h : tree ≠ nil) :
    IsGreatest {length | LeafAt tree length} tree.height := by
  refine ⟨leafAt_height h, ?_⟩
  rintro _ ⟨path, color, entry, rfl, rfl⟩
  exact length_add_height_le (node color nil entry nil) path

/-! ## Black nodes on a path -/

/-- The frames of a path make up for the black nodes that a tree in its place does not have. -/
theorem Accepts.add_countP_black {path : Path α} {c : Color} {n m : Nat}
    (h : Accepts path c n m) : n + path.countP (·.color = .black) = m := by
  induction h with
  | root => rfl
  | red hcolor _ _ ih =>
    rw [List.countP_cons_of_neg (by simp [hcolor])]
    exact ih
  | black hcolor _ _ ih =>
    rw [List.countP_cons_of_pos (by simp [hcolor])]
    omega

/-- Every path to an empty place of a balanced tree crosses the same number of black nodes. -/
theorem Balanced.countP_black {tree : Tree α} {path : Path α} {n : Nat}
    (h : Balanced tree .black n) (hpath : Tree.nil.under path = tree) :
    path.countP (·.color = .black) = n := by
  subst hpath
  obtain ⟨c, k, hnil, hpath⟩ := h.exists_accepts
  cases hnil
  exact (Nat.zero_add _).symm.trans hpath.add_countP_black

/-- The children of a red node of a balanced tree are black. -/
theorem Balanced.color_children {tree left right : Tree α} {entry : α} {path : Path α} {n : Nat}
    (h : Balanced tree .black n) (hnode : (node .red left entry right).under path = tree) :
    left.color = .black ∧ right.color = .black := by
  subst hnode
  obtain ⟨c, k, hred, -⟩ := h.exists_accepts
  cases hred with
  | red hleft hright => exact ⟨hleft.color_eq, hright.color_eq⟩

/-- A tree is balanced if its red nodes have black children and every path to an empty place
crosses the same number of black nodes. -/
theorem balanced_of_countP_black {tree : Tree α} {n : Nat}
    (hred : ∀ (left : Tree α) (entry : α) (right : Tree α) (path : Path α),
      (node .red left entry right).under path = tree → left.color = .black ∧ right.color = .black)
    (hblack : ∀ path, Tree.nil.under path = tree → path.countP (·.color = .black) = n) :
    Balanced tree tree.color n := by
  induction tree generalizing n with
  | nil =>
    cases hblack [] rfl
    exact .nil
  | node color left entry right ihl ihr =>
    -- a path in a subtree is one of the tree without its highest frame
    have hcount : ∀ (side : Side) (near far : Tree α) (path : Path α),
        join side color near entry far = node color left entry right →
        Tree.nil.under path = near →
        path.countP (·.color = .black) + (if color = .black then 1 else 0) = n := by
      intro side near far path hjoin hpath
      have h := hblack (path ++ [⟨side, color, entry, far⟩]) (by
        rw [under_append, hpath, under_cons, under_nil]
        exact hjoin)
      rw [List.countP_append, List.countP_singleton] at h
      simpa using h
    have hspine := hcount .left left right (left.spine .left []) rfl (nil_under_spine ..)
    generalize (left.spine .left []).countP (·.color = .black) = k at hspine
    have hleft : Balanced left left.color k := by
      refine ihl (fun l e r path hplace => ?_) fun path hpath => ?_
      · exact hred l e r (path ++ [⟨.left, color, entry, right⟩]) (by
          rw [under_append, hplace]
          rfl)
      · have h := hcount .left left right path rfl hpath
        omega
    have hright : Balanced right right.color k := by
      refine ihr (fun l e r path hplace => ?_) fun path hpath => ?_
      · exact hred l e r (path ++ [⟨.right, color, entry, left⟩]) (by
          rw [under_append, hplace]
          rfl)
      · have h := hcount .right right left path rfl hpath
        omega
    subst hspine
    cases color with
    | red =>
      obtain ⟨hl, hr⟩ := hred left entry right [] rfl
      rw [hl] at hleft
      rw [hr] at hright
      exact .red hleft hright
    | black => exact .black hleft hright

/-! ## Bounds -/

namespace Balanced

variable {tree : Tree α} {c : Color} {n : Nat}

/-- No two red nodes follow each other, so at most one level more than twice the number of
black nodes fits, and only under a red root. -/
theorem height_le (h : Balanced tree c n) :
    tree.height ≤ 2 * n + if c = .red then 1 else 0 := by
  induction h with
  | nil => exact Nat.zero_le _
  | red _ _ ihl ihr =>
    simp only [reduceCtorEq, if_false, if_true, height] at ihl ihr ⊢
    omega
  | @black _ _ _ c d n _ _ ihl ihr =>
    -- a subtree with a red root uses the level that the black node adds
    have hl : (if c = .red then 1 else 0) ≤ 1 := by split <;> decide
    have hr : (if d = .red then 1 else 0) ≤ 1 := by split <;> decide
    simp only [reduceCtorEq, if_false, height]
    omega

/-- Every black node on a path doubles the number of empty places. -/
theorem two_pow_le (h : Balanced tree c n) : 2 ^ n ≤ tree.size + 1 := by
  induction h with
  | nil => exact Nat.le_refl _
  | red _ _ ihl ihr =>
    rw [size]
    omega
  | black _ _ ihl ihr =>
    rw [size, Nat.pow_succ]
    omega

theorem two_pow_height_le (h : Balanced tree .black n) :
    2 ^ tree.height ≤ (tree.size + 1) ^ 2 := by
  have hheight : tree.height ≤ n * 2 := by
    have hle := h.height_le
    rw [if_neg (by decide)] at hle
    omega
  calc 2 ^ tree.height
    _ ≤ 2 ^ (n * 2) := Nat.pow_le_pow_right (by decide) hheight
    _ = (2 ^ n) ^ 2 := Nat.pow_mul ..
    _ ≤ (tree.size + 1) ^ 2 := Nat.pow_le_pow_left h.two_pow_le 2

end Balanced

/-- A bound on a power of two, as one on its exponent. -/
theorem le_two_mul_logb {height places : Nat} (h : 2 ^ height ≤ places ^ 2) :
    (height : ℝ) ≤ 2 * Real.logb 2 places := by
  have hpos : (0 : ℝ) < 2 ^ height := by positivity
  have hcast : (2 : ℝ) ^ height ≤ (places : ℝ) ^ 2 := by exact_mod_cast h
  calc (height : ℝ)
    _ = Real.logb 2 (2 ^ height) := by rw [Real.logb_pow, Real.logb_self_eq_one one_lt_two, mul_one]
    _ ≤ Real.logb 2 ((places : ℝ) ^ 2) := Real.logb_le_logb_of_le one_lt_two hpos hcast
    _ = 2 * Real.logb 2 places := by rw [Real.logb_pow, Nat.cast_two]

end Tree

end RedBlack
