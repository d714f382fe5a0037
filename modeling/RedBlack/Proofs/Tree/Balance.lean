import RedBlack.Proofs.Tree.Repair

/-!
# Balance

The colouring rules of a red-black tree and their repair. `Balanced tree color n` says that
the root of a tree has a colour, that no red node has a red child, and that every path to an
empty place crosses `n` black nodes; `Accepts path color n m` says the same of a tree with a
hole, into which a tree with that root colour and `n` black nodes on every path fits, and
which has `m` black nodes on every path once the hole is filled.

The repairs need less than balance: `repairRed` starts from a red root where the path
accepts a black one (`balanced_settleRed`, `balanced_repairRed`), `repairShort` from a tree
with one black node less than the path accepts (`balanced_repairShort`).
-/

namespace RedBlack

namespace Tree

variable {α : Type}

/-- The colouring rules: the root has a colour, red nodes have black children, and all paths
to empty places cross the same number of black nodes. -/
inductive Balanced : Tree α → Color → Nat → Prop
  /-- The empty tree counts as black and holds no black node. -/
  | nil : Balanced nil .black 0
  /-- A red node needs black children. -/
  | red {left right : Tree α} {entry : α} {n : Nat} :
      Balanced left .black n → Balanced right .black n →
        Balanced (node .red left entry right) .red n
  /-- A black node counts. -/
  | black {left right : Tree α} {entry : α} {c d : Color} {n : Nat} :
      Balanced left c n → Balanced right d n →
        Balanced (node .black left entry right) .black (n + 1)

namespace Balanced

variable {tree near far : Tree α} {entry : α} {c d : Color} {n : Nat} {side : Side}

theorem color_eq (h : Balanced tree c n) : tree.color = c := by
  cases h <;> rfl

theorem join_red (hnear : Balanced near .black n) (hfar : Balanced far .black n) :
    Balanced (join side .red near entry far) .red n := by
  cases side with
  | left => exact .red hnear hfar
  | right => exact .red hfar hnear

theorem join_black (hnear : Balanced near c n) (hfar : Balanced far d n) :
    Balanced (join side .black near entry far) .black (n + 1) := by
  cases side with
  | left => exact .black hnear hfar
  | right => exact .black hfar hnear

/-- The subtrees of a red node, from any side, are black. -/
theorem of_join_red (h : Balanced (join side .red near entry far) c n) :
    Balanced near .black n ∧ Balanced far .black n := by
  cases side with
  | left => cases h with | red hl hr => exact ⟨hl, hr⟩
  | right => cases h with | red hl hr => exact ⟨hr, hl⟩

/-- The subtrees of a black node, from any side, cross one black node less. -/
theorem of_join_black (h : Balanced (join side .black near entry far) c n) :
    ∃ c' d' k, n = k + 1 ∧ Balanced near c' k ∧ Balanced far d' k := by
  cases side with
  | left => cases h with | black hl hr => exact ⟨_, _, _, rfl, hl, hr⟩
  | right => cases h with | black hl hr => exact ⟨_, _, _, rfl, hr, hl⟩

/-- A tree with a black node on every path is not empty. -/
theorem exists_facing (h : Balanced tree c (n + 1)) (side : Side) :
    ∃ near entry far, tree.facing side = node c near entry far := by
  cases side <;> cases h <;> exact ⟨_, _, _, rfl⟩

theorem exists_facing_of_red (h : Balanced tree .red n) (side : Side) :
    ∃ near entry far, tree.facing side = node .red near entry far :=
  exists_facing_of_color h.color_eq side

/-- A black root can turn red if its subtrees are black. -/
theorem paint_red_join (h : Balanced (join side .black near entry far) c (n + 1))
    (hnear : near.color = .black) (hfar : far.color = .black) :
    Balanced ((join side .black near entry far).paint .red) .red n := by
  obtain ⟨c', d', k, hk, hn, hf⟩ := of_join_black h
  cases hk
  cases hn.color_eq.symm.trans hnear
  cases hf.color_eq.symm.trans hfar
  rw [paint_join]
  exact join_red hn hf

/-- A red root that turns black adds a black node to every path. -/
theorem paint_black_of_red (h : Balanced tree .red n) :
    Balanced (tree.paint .black) .black (n + 1) := by
  cases h with | red hl hr => exact .black hl hr

theorem paint_black_of_black (h : Balanced tree .black n) :
    Balanced (tree.paint .black) .black n := by
  cases h with
  | nil => exact .nil
  | black hl hr => exact .black hl hr

end Balanced

/-- The colouring rules for a tree with a hole: filled with a tree whose root has a colour
and whose paths cross `n` black nodes, it keeps the rules, has a black root and crosses `m`
black nodes on every path. -/
inductive Accepts : Path α → Color → Nat → Nat → Prop
  /-- The root must be black. -/
  | root {n : Nat} : Accepts [] .black n n
  /-- A red node takes a black child. -/
  | red {frame : Frame α} {path : Path α} {n m : Nat} :
      frame.color = .red → Balanced frame.sibling .black n → Accepts path .red n m →
        Accepts (frame :: path) .black n m
  /-- A black node takes any child. -/
  | black {frame : Frame α} {path : Path α} {c d : Color} {n m : Nat} :
      frame.color = .black → Balanced frame.sibling d n → Accepts path .black (n + 1) m →
        Accepts (frame :: path) c n m

namespace Accepts

variable {tree : Tree α} {path : Path α} {c : Color} {n m : Nat}

/-- What accepts a red root accepts a black one. -/
theorem black_of_red (h : Accepts path .red n m) : Accepts path .black n m := by
  cases h with
  | black hcolor hsibling hpath => exact .black hcolor hsibling hpath

/-- Filling the hole gives a balanced tree with a black root. -/
theorem balanced_under (h : Accepts path c n m) (htree : Balanced tree c n) :
    Balanced (tree.under path) .black m := by
  induction h generalizing tree with
  | root => exact htree
  | @red frame path n m hcolor hsibling hpath ih =>
    apply ih
    rw [Frame.close, hcolor]
    exact .join_red htree hsibling
  | @black frame path c d n m hcolor hsibling hpath ih =>
    apply ih
    rw [Frame.close, hcolor]
    exact .join_black htree hsibling

end Accepts

/-- A balanced tree that is taken apart at a place is a balanced tree in a hole that accepts
it. -/
theorem Balanced.exists_accepts {tree : Tree α} {path : Path α} {m : Nat}
    (h : Balanced (tree.under path) .black m) :
    ∃ c n, Balanced tree c n ∧ Accepts path c n m := by
  induction path generalizing tree with
  | nil => exact ⟨_, _, h, .root⟩
  | cons frame path ih =>
    obtain ⟨c, n, hclose, hpath⟩ := ih h
    obtain ⟨side, color, entry, sibling⟩ := frame
    -- the colour that the path accepts is that of the lowest frame
    have hcolor := hclose.color_eq
    rw [Frame.close, color_join] at hcolor
    simp only at hcolor
    subst hcolor
    cases color with
    | red =>
      obtain ⟨htree, hsibling⟩ := Balanced.of_join_red hclose
      exact ⟨_, _, htree, .red rfl hsibling hpath⟩
    | black =>
      obtain ⟨c', d', k, rfl, htree, hsibling⟩ := Balanced.of_join_black hclose
      exact ⟨_, _, htree, .black rfl hsibling hpath⟩

/-- The entry of a node plays no role for the balance of the tree. -/
theorem Balanced.replace {tree : Tree α} {frame : Frame α} {path : Path α} {m : Nat}
    (h : Balanced (tree.under (frame :: path)) .black m) (entry : α) :
    Balanced (tree.under ({ frame with entry } :: path)) .black m := by
  have hunder : Balanced ((frame.close tree).under path) .black m := h
  obtain ⟨c, n, hclose, hpath⟩ := hunder.exists_accepts
  refine hpath.balanced_under ?_
  -- `Balanced` never looks at an entry
  obtain ⟨side, color, old, sibling⟩ := frame
  cases side <;> cases hclose with
  | red hleft hright => exact .red hleft hright
  | black hleft hright => exact .black hleft hright

/-! ## Red nodes under red parents -/

/-- The rotation at the grandparent gives a balanced subtree with a black root. -/
theorem balanced_rotateGrand {tree : Tree α} {parent grand : Frame α} {d : Color} {n : Nat}
    (htree : Balanced tree .red n) (hparent : Balanced parent.sibling .black n)
    (hgrand : Balanced grand.sibling d n) (hd : d ≠ .red) :
    Balanced (tree.rotateGrand parent grand).1 .black (n + 1) := by
  have hd : d = .black := by cases d <;> first | rfl | exact absurd rfl hd
  subst hd
  unfold rotateGrand
  split
  · exact .join_black htree (.join_red hparent hgrand)
  · obtain ⟨near, entry, far, hfacing⟩ := htree.exists_facing_of_red grand.side
    rw [hfacing]
    rw [eq_join_of_facing hfacing] at htree
    obtain ⟨hnear, hfar⟩ := htree.of_join_red
    exact .join_black (.join_red hparent hnear) (.join_red hfar hgrand)

/-- Settling a red node where a black one is accepted gives a balanced tree. Its root is red
only if the red node has moved up to it; the number of black nodes on a path stays. -/
theorem balanced_settleRed {tree : Tree α} {path : Path α} {n m : Nat}
    (hpath : Accepts path .black n m) (htree : Balanced tree .red n) :
    ∃ c, Balanced (tree.settleRed path).1 c m := by
  fun_induction settleRed tree path generalizing n with
  | case1 tree parent grand path hred huncle settled events heq ih =>
    rw [heq] at ih
    -- a red frame accepts no red node, so the parent hangs from a black grandparent
    cases hpath with
    | black hcolor => rw [hcolor] at hred; cases hred
    | red _ hparent hgrand =>
      cases hgrand with
      | @black _ _ _ d _ _ hcolor hsibling hpath =>
        cases hsibling.color_eq.symm.trans huncle
        exact ih hpath (.join_red (.join_black htree hparent) hsibling.paint_black_of_red)
  | case2 tree parent grand path hred huncle rotated events heq =>
    cases hpath with
    | black hcolor => rw [hcolor] at hred; cases hred
    | red _ hparent hgrand =>
      cases hgrand with
      | black hcolor hsibling hpath =>
        -- the uncle is not red, so the rotation ends the repair
        have hd := hsibling.color_eq ▸ huncle
        have h := balanced_rotateGrand htree hparent hsibling hd
        rw [heq] at h
        exact ⟨_, hpath.balanced_under h⟩
  | case3 tree parent grand path hblack =>
    cases hpath with
    | red hcolor => exact absurd hcolor hblack
    | black hcolor hsibling hpath =>
      exact ⟨_, (Accepts.black hcolor hsibling hpath).balanced_under htree⟩
  | case4 tree path hshort =>
    cases hpath with
    | root => exact ⟨_, htree⟩
    -- a red frame has a frame above it, since the root is black
    | @red parent path n m _ _ hpath =>
      cases hpath with
      | @black grand path => exact absurd rfl (hshort parent grand path)
    | black hcolor hsibling hpath =>
      exact ⟨_, (Accepts.black hcolor hsibling hpath).balanced_under htree⟩

/-- Repairing a red node where a black one is accepted gives a balanced tree with a black
root. -/
theorem balanced_repairRed {tree : Tree α} {path : Path α} {n m : Nat}
    (hpath : Accepts path .black n m) (htree : Balanced tree .red n) :
    ∃ k, Balanced (tree.repairRed path).1 .black k := by
  obtain ⟨c, h⟩ := balanced_settleRed hpath htree
  rw [fst_repairRed]
  cases c with
  | red => exact ⟨_, h.paint_black_of_red⟩
  | black => exact ⟨_, h.paint_black_of_black⟩

/-! ## Places that are one black node short -/

/-- A tree whose paths are one black node shorter than `n + 1`, unless its root is red and
can make up for it. A red root may then have a red child. -/
def Deficient (tree : Tree α) (n : Nat) : Prop :=
  if tree.color = .red then Balanced (tree.paint .black) .black (n + 1)
  else Balanced tree .black n

/-- A balanced tree with a black node too few is deficient. -/
theorem Balanced.deficient {tree : Tree α} {c : Color} {n : Nat} (h : Balanced tree c n) :
    Deficient tree n := by
  rw [Deficient, h.color_eq]
  cases c with
  | red => exact h.paint_black_of_red
  | black => exact h

/-- A hole under a frame accepts a new node in place of the frame's, with black subtrees. -/
theorem Accepts.balanced_join {frame : Frame α} {path : Path α} {near far : Tree α} {entry : α}
    {n m : Nat} (h : Accepts (frame :: path) .black n m) (hnear : Balanced near .black n)
    (hfar : Balanced far .black n) :
    Balanced ((join frame.side frame.color near entry far).under path) .black m := by
  cases h with
  | red hcolor _ hpath =>
    rw [hcolor]
    exact hpath.balanced_under (.join_red hnear hfar)
  | black hcolor _ hpath =>
    rw [hcolor]
    exact hpath.balanced_under (.join_black hnear hfar)

/-- A repayment makes up for the missing black node. -/
theorem balanced_under_of_repay {tree repaid : Tree α} {frame : Frame α} {path : Path α}
    {events : List Event} {n m : Nat} (h : tree.repay frame = some (repaid, events))
    (hpath : Accepts (frame :: path) .black (n + 1) m) (htree : Balanced tree .black n)
    (hsibling : Balanced frame.sibling .black (n + 1)) :
    Balanced (repaid.under path) .black m := by
  obtain ⟨near, entry, far, hfacing⟩ := hsibling.exists_facing frame.side
  rw [eq_join_of_facing hfacing] at hsibling
  obtain ⟨c, d, k, hk, hnear, hfar⟩ := hsibling.of_join_black
  cases hk
  simp only [repay, hfacing] at h
  -- the sibling is black, so its subtrees cross as many black nodes as the short tree
  split at h
  · next hred =>
    cases h
    cases hfar.color_eq.symm.trans hred
    exact hpath.balanced_join (.join_black htree hnear) hfar.paint_black_of_red
  · split at h
    · next inner middle outer hred =>
      cases h
      rw [eq_join_of_facing hred] at hnear
      obtain ⟨hinner, houter⟩ := hnear.of_join_red
      exact hpath.balanced_join (.join_black htree hinner) (.join_black houter hfar)
    · cases h

/-- If nobody can pay, the sibling and its children are black. -/
theorem balanced_paint_red_of_repay {tree : Tree α} {frame : Frame α} {n : Nat}
    (h : tree.repay frame = none) (hsibling : Balanced frame.sibling .black (n + 1)) :
    Balanced (frame.sibling.paint .red) .red n := by
  obtain ⟨near, entry, far, hfacing⟩ := hsibling.exists_facing frame.side
  simp only [repay, hfacing] at h
  have heq := eq_join_of_facing hfacing
  rw [heq] at hsibling ⊢
  split at h
  · cases h
  · next hfar =>
    split at h
    · cases h
    · next hnear =>
      -- a red child on either side would have paid
      refine hsibling.paint_red_join ?_ ?_
      · obtain ⟨c, d, k, hk, hb, -⟩ := hsibling.of_join_black
        cases c with
        | black => exact hb.color_eq
        | red =>
          obtain ⟨inner, middle, outer, hred⟩ := hb.exists_facing_of_red frame.side
          exact absurd hred (hnear inner middle outer)
      · cases hcolor : far.color with
        | black => rfl
        | red => exact absurd hcolor hfar

/-- Pushing a shortage up leaves a deficient tree in the place of the parent. -/
theorem deficient_push {tree : Tree α} {frame : Frame α} {path : Path α} {n m : Nat}
    (h : tree.repay frame = none) (hpath : Accepts (frame :: path) .black (n + 1) m)
    (htree : Balanced tree .black n) (hsibling : Balanced frame.sibling .black (n + 1)) :
    ∃ k, Deficient (tree.push frame) k ∧ Accepts path .black (k + 1) m := by
  have hred := balanced_paint_red_of_repay h hsibling
  cases hpath with
  | red hcolor _ hpath =>
    -- a red parent can turn black in the next step
    refine ⟨n, ?_, hpath.black_of_red⟩
    rw [Deficient, push, Frame.close, hcolor, color_join, if_pos rfl, paint_join]
    exact .join_black htree hred
  | black hcolor _ hpath =>
    -- a black parent is as short as the place was
    refine ⟨n + 1, ?_, hpath⟩
    rw [Deficient, push, Frame.close, hcolor, color_join, if_neg (by decide)]
    exact .join_black htree hred

/-- Under a rotated red sibling, the place is accepted as before. -/
theorem Accepts.rotate_sibling {frame : Frame α} {path : Path α} {near far : Tree α}
    {entry : α} {n m : Nat} (h : Accepts (frame :: path) .black n m)
    (hfacing : frame.sibling.facing frame.side = node .red near entry far) :
    Accepts ({ frame with color := .red, sibling := near } ::
        { side := frame.side, color := .black, entry, sibling := far } :: path) .black n m ∧
      Balanced near .black n := by
  cases h with
  | red hcolor hsibling _ =>
    -- under a red parent the sibling would be black
    rw [eq_join_of_facing hfacing] at hsibling
    cases (color_join ..).symm.trans hsibling.color_eq
  | @black _ _ _ d _ _ hcolor hsibling hpath =>
    rw [eq_join_of_facing hfacing] at hsibling
    cases (color_join ..).symm.trans hsibling.color_eq
    obtain ⟨hnear, hfar⟩ := hsibling.of_join_red
    exact ⟨.red rfl hnear (.black rfl hfar hpath), hnear⟩

/-- A sibling that does not show itself red is black. -/
theorem Accepts.balanced_sibling {frame : Frame α} {path : Path α} {n m : Nat}
    (h : Accepts (frame :: path) .black (n + 1) m)
    (hred : ∀ near entry far, frame.sibling.facing frame.side = node .red near entry far → False) :
    Balanced frame.sibling .black (n + 1) := by
  cases h with
  | red _ hsibling _ => exact hsibling
  | @black _ _ _ d _ _ _ hsibling _ =>
    cases d with
    | black => exact hsibling
    | red =>
      obtain ⟨near, entry, far, hfacing⟩ := hsibling.exists_facing frame.side
      exact (hred near entry far hfacing).elim

/-- A shortage has been settled at the root, which is black or missing and cannot pay, and no
nephew has paid. -/
def Unpaid (settled : (Tree α × Path α) × List Event) : Prop :=
  settled.1.2 = [] ∧ (settled.1.1.under settled.1.2).color = .black ∧ .farNephew ∉ settled.2

/-- Settling a shortage and colouring the last place black gives a balanced tree. Its paths
cross as many black nodes as accepted, or one less if nobody has paid. -/
theorem balanced_settleShort {tree : Tree α} {path : Path α} {n m : Nat}
    (hpath : Accepts path .black (n + 1) m) (htree : Deficient tree n) :
    ∃ k, (k = m ∧ ¬ Unpaid (tree.settleShort path) ∨ k + 1 = m ∧ Unpaid (tree.settleShort path)) ∧
      Balanced (((tree.settleShort path).1.1.paint .black).under (tree.settleShort path).1.2)
        .black k := by
  fun_induction settleShort tree path generalizing n with
  | case1 tree =>
    cases hpath
    -- at the root, a missing black node is missing on every path
    by_cases hred : tree.color = .red
    · rw [Deficient, if_pos hred] at htree
      refine ⟨n + 1, .inl ⟨rfl, ?_⟩, htree⟩
      rintro ⟨-, hblack, -⟩
      cases hred.symm.trans hblack
    · rw [Deficient, if_neg hred] at htree
      exact ⟨n, .inr ⟨rfl, rfl, htree.color_eq, List.not_mem_nil⟩, htree.paint_black_of_black⟩
  | case2 tree frame path hred =>
    rw [Deficient, if_pos hred] at htree
    exact ⟨m, .inl ⟨rfl, fun h => List.cons_ne_nil _ _ h.1⟩, hpath.balanced_under htree⟩
  | case3 tree frame path hblack near entry far hfacing lower upper repaid events =>
    rename_i hrepay
    rw [Deficient, if_neg hblack] at htree
    obtain ⟨hlower, hnear⟩ := hpath.rotate_sibling hfacing
    have h := balanced_under_of_repay hrepay hlower htree hnear
    refine ⟨m, .inl ⟨rfl, fun hunpaid => ?_⟩, h.paint_black_of_black⟩
    exact hunpaid.2.2 (List.mem_cons_of_mem _ (farNephew_mem_of_repay hrepay))
  | case4 tree frame path hblack near entry far hfacing lower upper =>
    rename_i hrepay
    rw [Deficient, if_neg hblack] at htree
    obtain ⟨hlower, hnear⟩ := hpath.rotate_sibling hfacing
    refine ⟨m, .inl ⟨rfl, fun h => List.cons_ne_nil _ _ h.1⟩, ?_⟩
    -- the rotation has made the parent red, so it can be painted black
    cases hlower with
    | black hcolor => cases hcolor
    | red _ _ hupper =>
      refine hupper.black_of_red.balanced_under ?_
      rw [push, Frame.close, paint_join]
      exact .join_black htree (balanced_paint_red_of_repay hrepay hnear)
  | case5 tree frame path hblack repaid events hrepay hfacing =>
    rw [Deficient, if_neg hblack] at htree
    have h := balanced_under_of_repay hrepay hpath htree (hpath.balanced_sibling hfacing)
    exact ⟨m, .inl ⟨rfl, fun hunpaid => hunpaid.2.2 (farNephew_mem_of_repay hrepay)⟩,
      h.paint_black_of_black⟩
  | case6 tree frame path hblack hrepay place events heq hfacing ih =>
    rw [Deficient, if_neg hblack] at htree
    rw [heq] at ih
    obtain ⟨k, hpush, hup⟩ :=
      deficient_push hrepay hpath htree (hpath.balanced_sibling hfacing)
    -- a step up is no repayment
    have hunpaid : Unpaid (place, .deficiencyPushed :: events) ↔ Unpaid (place, events) := by
      simp [Unpaid]
    rw [hunpaid]
    exact ih hup hpush

/-- Repairing a place that is one black node short gives a balanced tree with a black root. -/
theorem balanced_repairShort {tree : Tree α} {path : Path α} {c : Color} {n m : Nat}
    (hpath : Accepts path .black (n + 1) m) (htree : Balanced tree c n) :
    ∃ k, Balanced (tree.repairShort path).1 .black k := by
  obtain ⟨k, -, h⟩ := balanced_settleShort hpath htree.deficient
  exact ⟨k, h⟩

/-! ## Insertion and removal -/

/-- Inserting an entry into an empty place of a balanced tree keeps the tree balanced. -/
theorem balanced_repairRed_leaf {path : Path α} {entry : α} {n : Nat}
    (h : Balanced (nil.under path) .black n) :
    ∃ k, Balanced ((node .red nil entry nil).repairRed path).1 .black k := by
  obtain ⟨c, n, hnil, hpath⟩ := h.exists_accepts
  cases hnil
  exact balanced_repairRed hpath (.red .nil .nil)

/-- Above an empty place, the sibling can move up into the place of its parent; if the parent
was black, it is one black node short there. -/
theorem Accepts.exists_sibling {frame : Frame α} {path : Path α} {n m : Nat}
    (h : Accepts (frame :: path) .black n m) :
    ∃ d, Balanced frame.sibling d n ∧ (frame.color = .red → Accepts path d n m) ∧
      (frame.color = .black → Accepts path .black (n + 1) m) := by
  cases h with
  | red hcolor hsibling hpath =>
    refine ⟨_, hsibling, fun _ => hpath.black_of_red, fun hblack => ?_⟩
    cases hcolor.symm.trans hblack
  | black hcolor hsibling hpath =>
    refine ⟨_, hsibling, fun hred => ?_, fun _ => hpath⟩
    cases hcolor.symm.trans hred

/-- What lies in the place that an unlinked node leaves has one black node too few if the
lost colour is black, and is accepted there otherwise. -/
theorem exists_accepts_unlink {color : Color} {left right : Tree α} {entry : α} {path : Path α}
    {m : Nat} (h : Balanced ((node color left entry right).under path) .black m) :
    ∃ d k, Balanced (unlink color left right path).1 d k ∧
      ((unlink color left right path).2.2 = .red →
        Accepts (unlink color left right path).2.1 d k m) ∧
      ((unlink color left right path).2.2 = .black →
        Accepts (unlink color left right path).2.1 .black (k + 1) m) := by
  -- in each case the place that is left is an empty one, seen from the frame above it
  have hempty : ∀ (frame : Frame α) (path : Path α),
      Balanced (nil.under (frame :: path)) .black m →
        ∃ d k, Balanced frame.sibling d k ∧ (frame.color = .red → Accepts path d k m) ∧
          (frame.color = .black → Accepts path .black (k + 1) m) := by
    intro frame path hnil
    obtain ⟨c, k, hk, hpath⟩ := hnil.exists_accepts
    cases hk
    obtain ⟨d, hsibling⟩ := hpath.exists_sibling
    exact ⟨d, 0, hsibling⟩
  unfold unlink
  split
  · exact hempty ⟨.left, color, entry, right⟩ path h
  · next c l e r =>
    split
    · next hspine =>
      cases eq_nil_of_spine_eq_nil hspine
      exact hempty ⟨.right, color, entry, node c l e r⟩ path h
    · next successor spine hspine =>
      -- the successor hands its entry over, which no rule looks at
      apply hempty successor (spine ++ ⟨.right, color, successor.entry, node c l e r⟩ :: path)
      rw [← List.cons_append, ← hspine, under_append, nil_under_spine]
      have hnode :
          Balanced (right.under (⟨.right, color, entry, node c l e r⟩ :: path)) .black m := h
      exact hnode.replace successor.entry

/-- Erasing a node of a balanced tree keeps the tree balanced. -/
theorem balanced_erase {color : Color} {left right : Tree α} {entry : α} {path : Path α}
    {n : Nat} (h : Balanced ((node color left entry right).under path) .black n) :
    ∃ k, Balanced (erase color left right path).1 .black k := by
  obtain ⟨d, k, htree, hred, hblack⟩ := exists_accepts_unlink h
  rw [erase]
  generalize unlink color left right path = place at htree hred hblack ⊢
  obtain ⟨tree, path, lost⟩ := place
  cases lost with
  | red => exact ⟨_, (hred rfl).balanced_under htree⟩
  | black => exact balanced_repairShort (hblack rfl) htree

end Tree

end RedBlack
