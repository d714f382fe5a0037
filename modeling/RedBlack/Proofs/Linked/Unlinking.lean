import RedBlack.Linked.Removal
import RedBlack.Proofs.Linked.Navigation
import RedBlack.Proofs.Linked.Redraw
import RedBlack.Proofs.Tree.Repair

/-!
# Taking Nodes out of Linked Trees

Unlinking a node on links is `Tree.unlink` of the tree that the links form. A node with two
subtrees is replaced by its successor, which is first detached from the right subtree, unless
it is the root of it, and then promoted into the place of the node
(`promote_eq_ok`).
-/

namespace RedBlack

namespace LinkedTree

open RedBlack.Tree (Frame Path)

variable {K V : Type} {linked : LinkedTree K V} {left right rest : Tree (Cell K V)}
  {path : Path (Cell K V)} {cell successor : Cell K V} {color : Color} {l : SlotId}
  {stored node : Node K V}

/-! ## Promoting the successor -/

/-- Let a detached node take the place, the left subtree and the colour of `z`. -/
def promote (z successor left : SlotId) : LinkM K V Unit := do
  substitute z (some successor)
  linkDown successor .left (some left)
  linkUp (some left) (some successor)
  paint successor (← LinkedTree.node z).color

/-- The linked tree after the promotion of a successor. -/
def promoted (successor : SlotId) (left : Link) (color : Color) (path : Path (Cell K V))
    (linked : LinkedTree K V) : LinkedTree K V :=
  let placed := (linked.attach path (some successor)).alter (some successor)
    (Node.withParent · (Path.owner path))
  let adopted := (placed.alter (some successor) (Node.withChild · .left left)).alter left
    (Node.withParent · (some successor))
  adopted.alter (some successor) (Node.withColor · color)

/-- A promotion only relinks. -/
theorem relinked_promoted (successor : SlotId) (left : Link) (color : Color)
    (path : Path (Cell K V)) (linked : LinkedTree K V) :
    linked.Relinked (linked.promoted successor left color path) := by
  rw [promoted]
  exact (Relinked.attach _ _ _).trans <|
    (Relinked.alter _ _ fun node => node.entry_withParent _).trans <|
    (Relinked.alter _ _ fun node => node.entry_withChild _ _).trans <|
    (Relinked.alter _ _ fun node => node.entry_withParent _).trans <|
    Relinked.alter _ _ fun node => node.entry_withColor _

section

variable
  -- the node that gives up its place
  (hpath : linked.Leads path (some cell.slot))
  (hleft : linked.arena.Stores (some cell.slot) left)
  -- the node that takes it
  (hstored : linked.arena.node? successor.slot = some stored)

include hpath hleft hstored

/-- Promoting a successor never lacks a node to read or to write. -/
theorem promote_eq_ok (hnode : linked.arena.node? cell.slot = some node)
    (hparent : node.parent = Path.owner path) (hlink : left.link = some l)
    (hcell : cell.slot ∉ ((Tree.node node.color left successor rest).under path).slots) :
    promote cell.slot successor.slot l linked =
      .ok () (linked.promoted successor.slot left.link node.color path) := by
  rw [Tree.mem_slots_under, not_or] at hcell
  obtain ⟨hcelltree, hcellpath⟩ := hcell
  have hcelltree : cell.slot ∉ (Frame.close ⟨.left, node.color, successor, rest⟩ left).slots :=
    hcelltree
  simp only [Tree.mem_slots_close, not_or] at hcelltree
  obtain ⟨hcells, -, hcellleft⟩ := hcelltree
  have hlive := live_of_node? hstored
  have hplace : substitute cell.slot (some successor.slot) linked =
      .ok () ((linked.attach path (some successor.slot)).alter (some successor.slot)
        (Node.withParent · (Path.owner path))) := by
    rw [substitute, bind_of_ok (node_of_node? hnode), hparent]
    exact relink_eq hpath (sibling_link_ne hcellpath) hlive
  have hlivel : linked.Live (some l) := hlink ▸ live_link hleft
  rw [promote, bind_of_ok hplace, bind_of_ok (linkDown_eq hlive.attach.alter .left (some l)),
    bind_of_ok (linkUp_eq hlivel.attach.alter.alter _)]
  -- the node that gave up its place still has its colour
  have howner : Path.owner path ≠ some cell.slot :=
    fun h => hcellpath (Path.mem_slots_of_owner h)
  have hl : l ≠ cell.slot := fun h => hcellleft (h ▸ Tree.mem_slots_of_link hlink)
  let placed := (linked.attach path (some successor.slot)).alter (some successor.slot)
    (Node.withParent · (Path.owner path))
  let adopted := (placed.alter (some successor.slot) (Node.withChild · .left (some l))).alter
    (some l) (Node.withParent · (some successor.slot))
  have hread : adopted.arena.node? cell.slot = some node := by
    simp only [adopted, placed, node?_alter, node?_attach, Option.some.injEq, if_neg hl,
      if_neg (Ne.symm hcells), if_neg howner, hnode]
  obtain ⟨last, hlast⟩ := hlive.attach.alter.alter.alter _ rfl
  rw [bind_of_ok (node_of_node? hread), promoted, hlink]
  exact modifyNode_eq hlast

/-- After the promotion the successor has the place of the node. -/
theorem depicts_promoted (hrest : linked.arena.Stores (some successor.slot) rest)
    (hentry : stored.entry = successor.entry) (hright : stored.right = rest.link)
    (hnodup : ((Tree.node color left successor rest).under path).slots.Nodup) :
    (linked.promoted successor.slot left.link color path).Depicts
      ((Tree.node color left successor rest).under path) := by
  obtain ⟨htreenodup, hpathnodup, hdisjoint⟩ := Tree.nodup_slots_under.1 hnodup
  have hclose : (Frame.close ⟨.left, color, successor, rest⟩ left).slots.Nodup := htreenodup
  obtain ⟨hsrest, hsleft, -, hleftnodup, hrestleft⟩ := Tree.nodup_slots_close.1 hclose
  have houtside : ∀ {id}, id = successor.slot ∨ id ∈ rest.slots ∨ id ∈ left.slots →
      id ∉ Path.slots path := by
    intro id hid
    have hmem : id ∈ (Frame.close ⟨.left, color, successor, rest⟩ left).slots :=
      Tree.mem_slots_close.2 hid
    exact hdisjoint hmem
  have hspath : successor.slot ∉ Path.slots path := houtside (.inl rfl)
  have hrestpath : rest.slots.Disjoint (Path.slots path) :=
    fun _ hid => houtside (.inr (.inl hid))
  have hleftpath : left.slots.Disjoint (Path.slots path) :=
    fun _ hid => houtside (.inr (.inr hid))
  have hs : ∀ {slots : List SlotId}, successor.slot ∉ slots → ∀ id ∈ slots,
    some successor.slot ≠ some id := some_ne_of_notMem
  -- the path, the successor itself, and the two subtrees below it
  refine ⟨shows_under_iff.2 ⟨?_, ?_, ?_, ?_⟩, hnodup⟩
  · exact ((((hpath.attach hpathnodup).alter (hs hspath)).alter (hs hspath)).alter
      (link_ne_of_disjoint hleftpath)).alter (hs hspath)
  · have howner : Path.owner path ≠ some successor.slot :=
      fun h => hspath (Path.mem_slots_of_owner h)
    have hlink : left.link ≠ some successor.slot := fun h => hsleft (Tree.mem_slots_of_link h)
    obtain ⟨key, value, color, parent, near, far⟩ := stored
    obtain ⟨rfl, rfl⟩ := Prod.mk.inj hentry
    cases hright
    rw [promoted]
    simp only [node?_alter, node?_attach, if_neg howner, if_neg hlink, hstored, if_pos]
    rfl
  · exact ((((stores_attach hleft (owner_ne_of_disjoint hleftpath)).alter (hs hsleft)).alter
      (hs hsleft)).adopt hleftnodup).alter (hs hsleft)
  · exact ((((stores_attach hrest (owner_ne_of_disjoint hrestpath)).alter (hs hsrest)).alter
      (hs hsrest)).alter (link_ne_of_disjoint fun _ hid hmem => hrestleft hmem hid)).alter
        (hs hsrest)

end

/-- A successor, whose right subtree is `rest` by now, is ready to take the place of a node
with the left subtree `left` at the end of a path. -/
structure Detached (linked : LinkedTree K V) (path : Path (Cell K V)) (cell : Cell K V)
    (color : Color) (left : Tree (Cell K V)) (successor : Cell K V) (rest : Tree (Cell K V)) :
    Prop where
  /-- The path leads to the node. -/
  leads : linked.Leads path (some cell.slot)
  /-- The node still has its parent and its colour. -/
  exists_node : ∃ node, linked.arena.node? cell.slot = some node ∧
    node.parent = Path.owner path ∧ node.color = color
  /-- The node still has its left subtree. -/
  stores_left : linked.arena.Stores (some cell.slot) left
  /-- The successor has the rest as its right subtree. -/
  exists_successor : ∃ stored, linked.arena.node? successor.slot = some stored ∧
    stored.entry = successor.entry ∧ stored.right = rest.link
  /-- The rest hangs below the successor. -/
  stores_rest : linked.arena.Stores (some successor.slot) rest

/-- A detached successor is promoted. -/
theorem Detached.promote (h : linked.Detached path cell color left successor rest)
    (hlink : left.link = some l)
    (hnodup : (cell.slot :: ((Tree.node color left successor rest).under path).slots).Nodup) :
    ∃ after, promote cell.slot successor.slot l linked = .ok () after ∧
      after.Depicts ((Tree.node color left successor rest).under path) ∧
        linked.Relinked after := by
  obtain ⟨hpath, ⟨node, hnode, hparent, rfl⟩, hleft, ⟨stored, hstored, hentry, hright⟩, hrest⟩ := h
  obtain ⟨hcell, hnodup⟩ := List.nodup_cons.1 hnodup
  exact ⟨_, promote_eq_ok hpath hleft hstored hnode hparent hlink hcell,
    depicts_promoted hpath hleft hstored hrest hentry hright hnodup, relinked_promoted ..⟩

/-! ## Detaching the successor -/

/-- Replacing a node by its successor loses the slot of the node and no other. -/
theorem slots_promote_perm {successor : Frame (Cell K V)} {spine : Path (Cell K V)}
    (hspine : right.spine .left [] = successor :: spine) :
    ((Tree.node color left cell right).under path).slots.Perm
      (cell.slot :: ((Tree.node color left successor.entry
        (successor.sibling.under spine)).under path).slots) := by
  have hbefore : ((Tree.node color left cell right).under path).slots.Perm _ :=
    Tree.slots_under_perm right (⟨.right, color, cell, left⟩ :: path)
  have hafter : ((Tree.node color left successor.entry
      (successor.sibling.under spine)).under path).slots.Perm _ :=
    Tree.slots_under_perm (successor.sibling.under spine)
      (⟨.right, color, successor.entry, left⟩ :: path)
  have hright := Tree.slots_under_perm .nil (successor :: spine)
  have hrest := Tree.slots_under_perm successor.sibling spine
  rw [Tree.under_cons, ← Tree.eq_under_of_spine_eq_cons hspine] at hright
  -- counted slot by slot: the node goes, and its successor moves
  rw [List.perm_iff_count]
  intro id
  rw [hbefore.count_eq, List.count_cons, hafter.count_eq, List.count_append, hright.count_eq,
    List.count_append, List.count_append, hrest.count_eq]
  simp only [Path.slots, List.count_cons, List.count_append, Tree.slots_nil, List.count_nil]
  omega

section

variable {successor frame : Frame (Cell K V)} {spine : Path (Cell K V)} {r : SlotId}
  (h : linked.Depicts ((Tree.node color left cell right).under path))

include h

/-- A successor that is the root of the right subtree is detached already. -/
theorem detached_of_singleton (hspine : right.spine .left [] = [successor]) :
    linked.Detached path cell color left successor.entry successor.sibling := by
  have hside : successor.side = .left := Tree.side_of_mem_spine (hspine ▸ List.mem_cons_self)
  have hright : right = successor.close .nil := Tree.eq_under_of_spine_eq_cons hspine
  have hshows : linked.Shows (right.under (⟨.right, color, cell, left⟩ :: path)) := h.shows
  obtain ⟨⟨hnode, hleft, hpath⟩, hstores⟩ := shows_under_iff.1 hshows
  rw [hright] at hstores
  obtain ⟨hsuccessor, -, hsibling⟩ := Arena.Stores.close_iff.1 hstores
  refine ⟨hpath, ⟨_, hnode, Frame.parent_node _ _ _, Frame.color_node _ _ _⟩, hleft,
    ⟨_, hsuccessor, Frame.entry_node _ _ _, ?_⟩, hsibling⟩
  obtain ⟨side, c, e, sibling⟩ := successor
  cases hside
  rfl

/-- A successor deeper down is detached by giving its place to its right subtree and making
the right subtree of the node its own. -/
theorem detachSuccessor_eq_ok (hspine : right.spine .left [] = successor :: frame :: spine)
    (hlink : right.link = some r) :
    ∃ after, detachSuccessor successor.entry.slot r successor.sibling.link linked = .ok () after ∧
      after.Detached path cell color left successor.entry
        (successor.sibling.under (frame :: spine)) ∧ linked.Relinked after := by
  let hole : Frame (Cell K V) := ⟨.right, color, cell, left⟩
  let rest := successor.sibling.under (frame :: spine)
  have hview : Tree.nil.under (successor :: (frame :: spine ++ hole :: path)) =
      (Tree.node color left cell right).under path := by
    rw [← List.cons_append, Tree.under_append, ← hspine, Tree.nil_under_spine]
    rfl
  rw [← hview] at h
  obtain ⟨⟨hsuccessor, -⟩, -⟩ := shows_under_iff.1 h.shows
  -- the right subtree of the successor takes its place at the end of the spine
  obtain ⟨after, heq, hafter, hrelinked⟩ := Redraws.substitute successor _ linked h
  rw [Tree.under_append] at hafter
  obtain ⟨⟨hnode, hleft, hpath⟩, hrest⟩ := shows_under_iff.1 hafter.shows
  obtain ⟨stored, hstored, hentry⟩ := hrelinked.exists_node hsuccessor
  -- the right subtree of the node keeps its root, since the spine goes on above
  have hrestlink : rest.link = some r := by
    rw [← hlink, Tree.eq_under_of_spine_eq_cons hspine]
    exact Tree.link_under_cons _ _ frame spine
  have hnodup := hview ▸ h.nodup
  rw [(slots_promote_perm hspine).nodup_iff, List.nodup_cons] at hnodup
  obtain ⟨hcell, hnodup⟩ := hnodup
  have hnodup : (rest.under (⟨.right, color, successor.entry, left⟩ :: path)).slots.Nodup := hnodup
  have hcell : cell.slot ∉ (rest.under (⟨.right, color, successor.entry, left⟩ :: path)).slots :=
    hcell
  obtain ⟨hrestnodup, hpathnodup, hdisjoint⟩ := Tree.nodup_slots_under.1 hnodup
  simp only [Path.slots, List.nodup_cons, List.mem_append, not_or] at hpathnodup
  obtain ⟨⟨hsleft, hspath⟩, -⟩ := hpathnodup
  simp only [Tree.mem_slots_under, Path.slots, List.mem_cons, List.mem_append, not_or] at hcell
  obtain ⟨hcellrest, hcells, -⟩ := hcell
  simp only [Path.slots, List.disjoint_cons_right, List.disjoint_append_right] at hdisjoint
  obtain ⟨hsrest, hrestleft, hrestpath⟩ := hdisjoint
  have hr : r ∈ rest.slots := Tree.mem_slots_of_link hrestlink
  have hrs : r ≠ successor.entry.slot := fun h => hsrest (h ▸ hr)
  have hrcell : r ≠ cell.slot := fun h => hcellrest (h ▸ hr)
  -- two links are written: down from the successor, and back up to it
  refine ⟨_, (bind_of_ok heq).trans ((bind_of_ok (linkDown_eq (live_of_node? hstored) .right
    (some r))).trans (linkUp_eq (hrestlink ▸ live_link hrest).alter _)), ⟨?_, ?_, ?_, ?_, ?_⟩, ?_⟩
  · exact (hpath.alter (some_ne_of_notMem hspath)).alter
      (some_ne_of_notMem fun hmem => hrestpath hr hmem)
  · refine ⟨_, ?_, Frame.parent_node hole rest.link _, Frame.color_node hole rest.link _⟩
    simp only [node?_alter, Option.some.injEq, if_neg hrcell, if_neg (Ne.symm hcells)]
    exact hnode
  · exact (hleft.alter (some_ne_of_notMem hsleft)).alter
      (some_ne_of_notMem fun hmem => hrestleft hr hmem)
  · refine ⟨stored.withChild .right (some r), ?_, ?_, hrestlink.symm⟩
    · simp only [node?_alter, Option.some.injEq, if_neg hrs, if_pos, hstored]
      rfl
    · rw [Node.entry_withChild, hentry, Frame.entry_node]
  · rw [← hrestlink]
    exact Arena.Stores.adopt (hrest.alter (some_ne_of_notMem hsrest)) hrestnodup
  · exact hrelinked.trans <| (Relinked.alter _ _ fun node => node.entry_withChild _ _).trans <|
      Relinked.alter _ _ fun node => node.entry_withParent _

end

/-- The successor is looked up and detached, and then promoted. -/
theorem promoteSuccessor_eq (z left right : SlotId) :
    (promoteSuccessor z left right : LinkM K V Vacancy) = (do
      let successor ← inspect fun tree => tree.arena.outermostFrom .left right
      let { right := child, parent, color, .. } ← LinkedTree.node successor
      let parent ←
        if successor = right then pure (some successor)
        else do
          detachSuccessor successor right child
          pure parent
      promote z successor left
      return { child, parent, color }) := by
  simp only [promoteSuccessor, promote, bind_assoc]

namespace Redraws

/-- The successor of a node with two subtrees takes its place. -/
theorem promoteSuccessor {successor : Frame (Cell K V)} {spine : Path (Cell K V)} {r : SlotId}
    (hleft : left.link = some l) (hright : right.link = some r)
    (hspine : right.spine .left [] = successor :: spine) (color : Color) (cell : Cell K V)
    (path : Path (Cell K V)) :
    Redraws (LinkedTree.promoteSuccessor cell.slot l r)
      ((Tree.node color left cell right).under path)
      (successor.sibling.under (spine ++ ⟨.right, color, successor.entry, left⟩ :: path))
      { child := successor.sibling.link
        parent := Path.owner (spine ++ ⟨.right, color, successor.entry, left⟩ :: path)
        color := successor.color } := by
  intro linked h
  have hshows : linked.Shows (right.under (⟨.right, color, cell, left⟩ :: path)) := h.shows
  have hslots : (right.under (⟨.right, color, cell, left⟩ :: path)).slots.Nodup := h.nodup
  obtain ⟨-, hstores⟩ := shows_under_iff.1 hshows
  obtain ⟨hrightnodup, -⟩ := Tree.nodup_slots_under.1 hslots
  have hsize := Tree.length_add_size_le right (⟨.right, color, cell, left⟩ :: path)
  have hbudget : right.size ≤ linked.arena.budget :=
    Nat.le_succ_of_le (Nat.le_of_add_left_le (Nat.le_trans hsize h.size_le))
  have hwalk : inspect (fun tree => tree.arena.outermostFrom .left r) linked =
      .ok successor.entry.slot linked := by
    simp only [inspect, Arena.outermostFrom, Arena.outermostWithin_eq hstores hright hspine hbudget]
  -- the successor is seen at the end of the spine
  have hview : (Tree.node color left cell right).under path =
      Tree.nil.under (successor :: (spine ++ ⟨.right, color, cell, left⟩ :: path)) := by
    rw [← List.cons_append, Tree.under_append, ← hspine, Tree.nil_under_spine]
    rfl
  obtain ⟨⟨hsuccessor, -⟩, -⟩ := shows_under_iff.1 (hview ▸ h.shows)
  have hnodup := h.nodup
  rw [(slots_promote_perm hspine).nodup_iff] at hnodup
  have hside : successor.side = .left := Tree.side_of_mem_spine (hspine ▸ List.mem_cons_self)
  obtain ⟨side, lost, taker, child⟩ := successor
  cases hside
  rw [promoteSuccessor_eq, bind_of_ok hwalk, bind_of_ok (node_of_node? hsuccessor)]
  cases spine with
  | nil =>
    have htaker : taker.slot = r := by
      rw [Tree.eq_under_of_spine_eq_cons hspine] at hright
      exact Option.some.inj hright
    obtain ⟨after, heq, hafter, hrelinked⟩ := (detached_of_singleton h hspine).promote hleft hnodup
    refine ⟨after, ?_, hafter, hrelinked⟩
    simp only [if_pos htaker]
    exact bind_of_ok heq
  | cons frame spine =>
    -- deeper down, the successor is not the root of the right subtree
    have htaker : taker.slot ≠ r := by
      have hright' := Tree.eq_under_of_spine_eq_cons hspine
      rw [hright'] at hright hrightnodup
      have hne := Tree.link_under_ne hrightnodup
      rw [hright, Frame.link_close] at hne
      exact fun h => hne (congrArg some h)
    obtain ⟨between, heq, hdetached, hrelinked⟩ := detachSuccessor_eq_ok h hspine hright
    obtain ⟨after, heq', hafter, hrelinked'⟩ := hdetached.promote hleft hnodup
    rw [Tree.under_append]
    refine ⟨after, ?_, hafter, hrelinked.trans hrelinked'⟩
    simp only [if_neg htaker]
    refine (bind_of_ok heq).trans ?_
    exact bind_of_ok heq'

/-- Taking a node out on links takes it out of the tree. -/
theorem unlink (color : Color) (left right : Tree (Cell K V)) (cell : Cell K V)
    (path : Path (Cell K V)) :
    Redraws (LinkedTree.unlink cell.slot) ((Tree.node color left cell right).under path)
      ((Tree.unlink color left right path).1.under (Tree.unlink color left right path).2.1)
      { child := (Tree.unlink color left right path).1.link
        parent := Path.owner (Tree.unlink color left right path).2.1
        color := (Tree.unlink color left right path).2.2 } := by
  refine .bind (.node ⟨.left, color, cell, right⟩ left path) ?_
  cases left with
  | nil => exact .bind (.substitute ⟨.left, color, cell, right⟩ path) (.pure _ _)
  | node c l e r =>
    cases right with
    | nil => exact .bind (.substitute ⟨.right, color, cell, .node c l e r⟩ path) (.pure _ _)
    | node c' l' e' r' =>
      cases hspine : (Tree.node c' l' e' r').spine .left [] with
      | nil => cases Tree.eq_nil_of_spine_eq_nil hspine
      | cons successor spine =>
        rw [Tree.unlink]
        simp only [hspine]
        exact promoteSuccessor rfl rfl hspine color cell path

end Redraws

end LinkedTree

end RedBlack
