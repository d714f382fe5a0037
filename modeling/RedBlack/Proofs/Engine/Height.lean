import RedBlack.Proofs.Engine.Validation
import RedBlack.Proofs.Tree.Height
import RedBlack.Proofs.Tree.Mapping

/-!
# Heights of Reachable Trees

The height and the black height of every reachable tree, as the engine measures them:
`LinkedTree.height` is the number of nodes on a longest path to a leaf, `Engine.validate` counts
the black nodes on every path, and the former is at most twice the logarithm of the number of
entries (`Engine.height_within_bounds`).
-/

namespace RedBlack

variable {σ K V : Type}

/-- The height of a layout is that of the shape it shows, which is on a longest path to a leaf. -/
theorem Layout.isGreatest_height {layout : Layout K V} (h : layout.tree.entries ≠ .nil) :
    IsGreatest {length | layout.tree.entries.LeafAt length} layout.tree.height := by
  rw [← Tree.height_map Cell.entry]
  exact Tree.isGreatest_height h

namespace Engine

/-- In every reachable tree of `n` entries, whatever the comparator answers, the reported height
`h` is the number of nodes on a longest path from the root to a leaf, and the number `b` that the
check of the tree counts is that of the black nodes on any path to an empty place, with one more
for the place itself; `h` is at most `2 * (b - 1)`, `2 ^ (b - 1)` at most `n + 1`, and so `h` at
most twice the binary logarithm of `n + 1`. The check can only fail where a comparator denies
the order of two keys. -/
theorem height_within_bounds {context : Context σ K V} (h : context.tree.Reachable)
    (comparator : Comparator σ K) :
    ∃ shape height blackHeight,
      context.tree.toTree = .ok shape ∧
      context.tree.height = .ok height ∧
      (shape = .nil ∧ height = 0 ∨ IsGreatest {length | shape.LeafAt length} height) ∧
      (∃ after : Context σ K V, after.tree = context.tree ∧
        (validate comparator context = .ok blackHeight after ∨
          comparator.Denies ∧
            validate comparator context = .error (.violation .keyOutOfOrder) after)) ∧
      (∀ path, Tree.nil.under path = shape →
        path.countP (·.color = .black) + 1 = blackHeight) ∧
      height ≤ 2 * (blackHeight - 1) ∧
      2 ^ (blackHeight - 1) ≤ context.tree.size + 1 ∧
      2 ^ height ≤ (context.tree.size + 1) ^ 2 ∧
      (height : ℝ) ≤ 2 * Real.logb 2 (context.tree.size + 1) := by
  obtain ⟨layout, hlaid⟩ := h.exists_laidOut
  obtain ⟨n, hbalanced⟩ := hlaid.balanced
  have hpow := hbalanced.two_pow_height_le
  have hlogb := Tree.le_two_mul_logb hpow
  have hheight := hbalanced.height_le
  rw [if_neg (by decide), Nat.add_zero] at hheight
  rw [Nat.cast_add_one] at hlogb
  rw [hlaid.size]
  refine ⟨layout.tree.entries, layout.tree.height, n + 1, hlaid.toTree_eq_ok,
    hlaid.height_eq_ok, ?_, ?_, ?_, hheight, hbalanced.two_pow_le, hpow, hlogb⟩
  · rcases hempty : layout.tree with _ | ⟨color, left, cell, right⟩
    · exact .inl ⟨rfl, rfl⟩
    · rw [← hempty]
      refine .inr (Layout.isGreatest_height ?_)
      rw [hempty]
      exact nofun
  · exact Checks.validate comparator hlaid hbalanced context rfl
  · intro path hpath
    exact congrArg (· + 1) ((hbalanced.map Cell.entry).countP_black hpath)

/-- The tree after a run with a comparator that changes its mind. -/
theorem height_within_bounds_flipping :
    ∃ answers context,
      run (Operation.perform (Comparator.flipping 3 compare))
        [.insert 1 10 .overwrite, .insert 2 20 .reject, .insert 3 30 .overwrite,
          .insert 2 40 .reject, .insert 5 50 .overwrite, .pop .left,
          (.insert 4 60 .reject : Operation Unit Nat Nat)]
        (.ofArena (Arena.empty ⟨8, 24⟩ : Arena Nat Nat) 0) = .ok answers context ∧
      context.tree.Reachable ∧
      ∃ height, context.tree.height = .ok height ∧ 2 ^ height ≤ (context.tree.size + 1) ^ 2 := by
  have hnew : Arena.withCapacity ⟨8, 24⟩ 0 = .ok (Arena.empty ⟨8, 24⟩ : Arena Nat Nat) := rfl
  obtain ⟨_, _, hrun, hreachable, -⟩ :=
    exists_reachable_run hnew (Comparator.flipping 3 compare) _ _
  obtain ⟨_, height, _, _, hheight, _, _, _, _, _, hpow, _⟩ :=
    height_within_bounds hreachable (Comparator.flipping 3 compare)
  exact ⟨_, _, hrun, hreachable, height, hheight, hpow⟩

end Engine

end RedBlack
