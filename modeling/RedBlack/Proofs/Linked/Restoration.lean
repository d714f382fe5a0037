import RedBlack.Proofs.Linked.Insertion
import RedBlack.Proofs.Linked.Removal
import RedBlack.Proofs.Tree.Defect
import RedBlack.Proofs.Tree.Rebalancing

/-!
# Repairs of Linked Trees with One Defect

The two repairs restore all rules from any tree that breaks them in a single place, whatever lies
there: `repairRed_restores` for a red node under a red parent or at the root, and
`repairShort_restores` for a place whose paths are one black node short. They are not bound to the
trees that storing and taking out an entry leave behind.

Both say what becomes of the number of black nodes on a path. It grows if the root is red when a
red node has been moved up, and it drops if a shortage arrives at a root that cannot pay.
-/

namespace RedBlack

namespace Tree

open Event (afterRecolorings)

variable {α : Type} {tree : Tree α} {path : Path α}

/-- The rotation at the grandparent leaves a black root. -/
theorem color_rotateGrand (htree : tree.color = .red) (parent grand : Frame α) :
    (tree.rotateGrand parent grand).1.color = .black := by
  unfold rotateGrand
  split
  · exact color_join ..
  · obtain ⟨near, entry, far, hfacing⟩ := exists_facing_of_color htree grand.side
    rw [hfacing]
    exact color_join ..

/-- Where no root is red, neither in the place nor on the path, the root of the tree is not. -/
theorem color_under_ne (htree : path = [] → tree.color ≠ .red)
    (hroot : ∀ frame ∈ path.getLast?, frame.color ≠ .red) : (tree.under path).color ≠ .red := by
  cases hlast : path.getLast? with
  | none =>
    obtain rfl := List.getLast?_eq_none_iff.1 hlast
    exact htree rfl
  | some frame =>
    rw [color_under hlast]
    exact hroot frame hlast

/-- After settling a red node, the root is red exactly if the node was the root, or if the
recolourings went all the way up to it. -/
theorem color_settleRed_iff (htree : tree.color = .red)
    (hroot : ∀ frame ∈ path.getLast?, frame.color ≠ .red) :
    (tree.settleRed path).1.color = .red ↔
      path.length = 2 * (tree.settleRed path).2.count .recolored := by
  fun_induction settleRed tree path with
  | case1 tree parent grand path hred huncle settled events heq ih =>
    rw [heq] at ih
    have hroot' : ∀ frame ∈ path.getLast?, frame.color ≠ .red := fun frame hframe =>
      hroot frame (List.mem_getLast?_cons (List.mem_getLast?_cons hframe))
    have hsettled : settled.color = .red ↔ path.length = 2 * events.count .recolored :=
      ih (color_join ..) hroot'
    rw [hsettled, List.length_cons, List.length_cons, List.count_cons_self]
    omega
  | case2 tree parent grand path hred huncle rotated events heq =>
    have hnone : ∀ ending ∈ afterRecolorings, ending.count .recolored = 0 := by decide
    have hevents := rotateGrand_mem tree parent grand
    have hrotated := color_rotateGrand htree parent grand
    rw [heq] at hevents hrotated
    -- the rotation is below the root, or leaves a black root itself
    have hcolor : (rotated.under path).color ≠ .red :=
      color_under_ne (fun _ hcolor => by cases hrotated.symm.trans hcolor) fun frame hframe =>
        hroot frame (List.mem_getLast?_cons (List.mem_getLast?_cons hframe))
    rw [hnone events hevents]
    exact iff_of_false hcolor (Nat.succ_ne_zero _)
  | case3 tree parent grand path hblack =>
    have hcolor : (tree.under (parent :: grand :: path)).color ≠ .red :=
      color_under_ne (fun hpath => absurd hpath (List.cons_ne_nil _ _)) hroot
    exact iff_of_false hcolor (Nat.succ_ne_zero _)
  | case4 tree path hshort =>
    cases path with
    | nil => exact iff_of_true htree rfl
    | cons parent path =>
      have hcolor : (tree.under (parent :: path)).color ≠ .red :=
        color_under_ne (fun hpath => absurd hpath (List.cons_ne_nil _ _)) hroot
      exact iff_of_false hcolor (Nat.succ_ne_zero _)

/-- Settling a shortage gets to the root without a nephew's help exactly if every frame of the path
has taken the shortage over. -/
theorem settleShort_root_iff (tree : Tree α) (path : Path α) :
    (tree.settleShort path).1.2 = [] ∧ .farNephew ∉ (tree.settleShort path).2 ↔
      (tree.settleShort path).2 = List.replicate path.length .deficiencyPushed := by
  have hpaid : ∀ {events : List Event} n, .farNephew ∈ events →
      events ≠ List.replicate n .deficiencyPushed := by
    rintro _ n hmem rfl
    cases (List.mem_replicate.1 hmem).2
  fun_induction settleShort tree path with
  | case1 tree => exact iff_of_true ⟨rfl, List.not_mem_nil⟩ rfl
  | case2 tree frame path hred =>
    exact iff_of_false (fun h => List.cons_ne_nil _ _ h.1) (List.cons_ne_nil _ _).symm
  | case3 tree frame path hblack near entry far hfacing lower upper repaid events hrepay =>
    have hmem := List.mem_cons_of_mem .siblingRotated (farNephew_mem_of_repay hrepay)
    exact iff_of_false (fun h => h.2 hmem) (hpaid _ hmem)
  | case4 tree frame path hblack near entry far hfacing lower upper hrepay =>
    refine iff_of_false (fun h => List.cons_ne_nil _ _ h.1) fun h => ?_
    cases (List.cons.inj h).1
  | case5 tree frame path hblack repaid events hrepay hfacing =>
    have hmem := farNephew_mem_of_repay hrepay
    exact iff_of_false (fun h => h.2 hmem) (hpaid _ hmem)
  | case6 tree frame path hblack hrepay place events heq hfacing ih =>
    have hstep : .farNephew ∉ Event.deficiencyPushed :: events ↔ .farNephew ∉ events := by simp
    rw [heq] at ih
    rw [List.length_cons, List.replicate_succ, List.cons_inj_right, hstep]
    exact ih

end Tree

namespace LinkedTree

open RedBlack.Tree (Path Balanced BlackHeight RedRulesBut ShortAt)

variable {K V : Type} {linked : LinkedTree K V} {left right low : Tree (Cell K V)}
  {cell : Cell K V} {path : Path (Cell K V)} {n : Nat}

/-- A linked tree keeps all rules, with `n` black nodes on every path. It holds the cells of
`tree` in their order, and differs from the linked tree before in links and colours only. -/
def Restored (linked after : LinkedTree K V) (tree : Tree (Cell K V)) (n : Nat) : Prop :=
  ∃ new, after.Depicts new ∧ Balanced new .black n ∧ new.toList = tree.toList ∧
    linked.Relinked after

/-- The budget exceeds the depth of every place. -/
theorem Depicts.length_lt_budget (h : linked.Depicts (low.under path)) :
    path.length < linked.arena.budget := by
  have hlength := Tree.length_add_size_le low path
  have hsize := h.size_le
  rw [Arena.budget]
  omega

/-- Moving up a red node restores all rules if it is the only red node that is the root or has a
red parent. -/
theorem repairRed_restores
    (hlinked : linked.Depicts ((Tree.node .red left cell right).under path))
    (hred : RedRulesBut path ((Tree.node .red left cell right).under path))
    (hblack : BlackHeight ((Tree.node .red left cell right).under path) n) :
    ∃ events settled shape after,
      repairRedWithin linked.arena.budget cell.slot linked = .ok events settled ∧
      settled.Depicts shape ∧
      repairRed cell.slot linked = .ok events after ∧
      linked.Restored after ((Tree.node .red left cell right).under path)
        (if shape.color = .red then n + 1 else n) ∧
      (shape.color = .red ↔ path.length = 2 * events.count .recolored) := by
  have hroot : ∀ frame ∈ path.getLast?, frame.color ≠ .red := by
    intro frame hframe hcolor
    -- a red frame at the root would put the node there
    rw [hred.root ((Tree.color_under hframe).trans hcolor)] at hframe
    cases hframe
  have hlink : (Tree.node .red left cell right).link = some cell.slot := rfl
  obtain ⟨settled, hsettled, hshape, -⟩ :=
    Redraws.repairRedWithin hlink hlinked.length_lt_budget hroot linked hlinked
  obtain ⟨after, hafter, hnew, hrelinked⟩ := Redraws.repairRed hlink hroot linked hlinked
  obtain ⟨k, hlow, haccepts⟩ := hred.exists_accepts hblack
  obtain ⟨c, hbalanced⟩ := Tree.balanced_settleRed haccepts hlow
  refine ⟨_, settled, _, after, hsettled, hshape, hafter, ⟨_, hnew, ?_, ?_, hrelinked⟩, ?_⟩
  · rw [Tree.fst_repairRed, hbalanced.color_eq]
    cases c with
    | red => exact hbalanced.paint_black_of_red
    | black => exact hbalanced.paint_black_of_black
  · exact Tree.toList_repairRed _ _
  · exact Tree.color_settleRed_iff rfl hroot

deriving instance DecidableEq for Cell

/-- Four nodes, of which only the root (slot 0) is black. Slot 2 hangs on the right of slot 1. -/
def redUnderRed : LinkedTree Nat Nat where
  arena :=
    { slots := #[.occupied ⟨30, 3, .black, none, some 1, some 3⟩,
        .occupied ⟨10, 1, .red, some 0, none, some 2⟩,
        .occupied ⟨20, 2, .red, some 1, none, none⟩,
        .occupied ⟨40, 4, .red, some 0, none, none⟩]
      lastVacated := none
      live := 4
      capacity := 4
      room := ⟨4, 24⟩ }
  root := some 0
  size := 4

/-- A recolouring that reaches the root adds a black node to every path. -/
theorem repairRed_restores_to_root :
    let path : Path (Cell Nat Nat) :=
      [⟨.right, .red, ⟨1, 10, 1⟩, .nil⟩,
        ⟨.left, .black, ⟨0, 30, 3⟩, .node .red .nil ⟨3, 40, 4⟩ .nil⟩]
    let tree := (Tree.node .red .nil ⟨2, 20, 2⟩ .nil).under path
    redUnderRed.Depicts tree ∧ RedRulesBut path tree ∧ BlackHeight tree 1 ∧
      ∃ after, repairRed 2 redUnderRed = .ok [.recolored] after ∧
        redUnderRed.Restored after tree 2 := by
  intro path tree
  have hdepicts : redUnderRed.Depicts tree :=
    ⟨⟨rfl, rfl, ⟨rfl, trivial, rfl, trivial, trivial⟩, rfl, trivial, trivial⟩, by decide⟩
  have hred : RedRulesBut path tree := by decide
  have hblack : BlackHeight tree 1 := by decide
  obtain ⟨events, settled, shape, after, hsettled, -, hafter, hrestored, hcolor⟩ :=
    repairRed_restores hdepicts hred hblack
  obtain ⟨_, hrun⟩ : ∃ settled, repairRedWithin 5 2 redUnderRed = .ok [.recolored] settled :=
    ⟨_, rfl⟩
  cases hsettled.symm.trans hrun
  rw [if_pos (hcolor.2 rfl)] at hrestored
  exact ⟨hdepicts, hred, hblack, after, hafter, hrestored⟩

/-- What lies in a place is the root exactly if the place is the top of the tree. -/
theorem Depicts.link_eq_root_iff (h : linked.Depicts (low.under path)) :
    low.link = linked.root ↔ path = [] := by
  rw [h.shows.1]
  cases path with
  | nil => exact iff_of_true rfl rfl
  | cons frame path => exact iff_of_false (Tree.link_under_ne h.nodup) (List.cons_ne_nil _ _)

/-- Moving up a shortage restores all rules if, but for the place of the shortage, no red node is
the root or has a red parent, and every path has as many black nodes. -/
theorem repairShort_restores (hlinked : linked.Depicts (low.under path))
    (hred : RedRulesBut path (low.under path)) (hshort : ShortAt path (low.under path) n) :
    ∃ last events settled shape after k,
      repairShortWithin linked.arena.budget low.link (Path.owner path) linked =
        .ok (last, events) settled ∧
      settled.Depicts shape ∧
      repairShort low.link (Path.owner path) linked = .ok events after ∧
      linked.Restored after (low.under path) k ∧
      (n = if last = settled.root ∧ shape.color = .black ∧ .farNephew ∉ events
        then k + 1 else k) ∧
      (last = settled.root ∧ .farNephew ∉ events ↔
        events = List.replicate path.length .deficiencyPushed) := by
  obtain ⟨k, hlow, haccepts⟩ := hred.exists_accepts_of_shortAt hshort
  obtain ⟨settled, hsettled, hshape, -⟩ :=
    Redraws.repairShortWithin haccepts hlow.deficient hlinked.length_lt_budget linked hlinked
  obtain ⟨after, hafter, hnew, hrelinked⟩ :=
    Redraws.repairShort haccepts hlow.deficient linked hlinked
  obtain ⟨k, hk, hbalanced⟩ := Tree.balanced_settleShort haccepts hlow.deficient
  refine ⟨_, _, settled, _, after, k, hsettled, hshape, hafter,
    ⟨_, hnew, hbalanced, Tree.toList_repairShort _ _, hrelinked⟩, ?_, ?_⟩
  · simp only [hshape.link_eq_root_iff]
    split
    · next hunpaid => exact (hk.resolve_left fun h => h.2 hunpaid).1.symm
    · next hpaid => exact (hk.resolve_right fun h => hpaid h.2).1.symm
  · rw [hshape.link_eq_root_iff]
    exact Tree.settleShort_root_iff low path

/-- Two black nodes, the second of which (slot 1) is the right child of the first: the left side
is one black node short. -/
def shortOnLeft : LinkedTree Nat Nat where
  arena :=
    { slots := #[.occupied ⟨10, 1, .black, none, none, some 1⟩,
        .occupied ⟨20, 2, .black, some 0, none, none⟩]
      lastVacated := none
      live := 2
      capacity := 4
      room := ⟨4, 24⟩ }
  root := some 0
  size := 2

/-- A shortage that arrives at a black root takes a black node from every path. -/
theorem repairShort_restores_to_root :
    let path : Path (Cell Nat Nat) :=
      [⟨.left, .black, ⟨0, 10, 1⟩, .node .black .nil ⟨1, 20, 2⟩ .nil⟩]
    let tree := Tree.nil.under path
    shortOnLeft.Depicts tree ∧ RedRulesBut path tree ∧ ShortAt path tree 2 ∧
      ∃ after, repairShort none (some 0) shortOnLeft = .ok [.deficiencyPushed] after ∧
        shortOnLeft.Restored after tree 1 := by
  intro path tree
  have hdepicts : shortOnLeft.Depicts tree :=
    ⟨⟨rfl, rfl, trivial, rfl, trivial, trivial⟩, by decide⟩
  have hred : RedRulesBut path tree := by decide
  have hshort : ShortAt path tree 2 := by decide
  obtain ⟨last, events, settled, shape, after, k, hsettled, hshape, hafter, hrestored, hk, hroot⟩ :=
    repairShort_restores hdepicts hred hshort
  obtain ⟨_, hrun, hend, hnode⟩ : ∃ settled,
      repairShortWithin 3 none (some 0) shortOnLeft = .ok (some 0, [.deficiencyPushed]) settled ∧
      settled.root = some 0 ∧
      settled.arena.node? 0 = some ⟨10, 1, .black, none, none, some 1⟩ := ⟨_, rfl, rfl, rfl⟩
  cases hsettled.symm.trans hrun
  -- the root that the repair stops at is read from its slot
  have hblack : shape.color = .black := by
    cases shape with
    | nil => cases hend.symm.trans hshape.shows.1
    | node color left cell right =>
      obtain ⟨slot, key, value⟩ := cell
      obtain ⟨hlink, hstored, -, -⟩ := hshape.shows
      cases hend.symm.trans hlink
      exact (congrArg Node.color (Option.some.inj (hnode.symm.trans hstored))).symm
  rw [if_pos ⟨hend.symm, hblack, (hroot.2 rfl).2⟩] at hk
  cases hk
  exact ⟨hdepicts, hred, hshort, after, hafter, hrestored⟩

end LinkedTree

end RedBlack
