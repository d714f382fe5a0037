import RedBlack.Linked.Teardown
import RedBlack.Proofs.Linked.Layout
import RedBlack.Proofs.Tree.Mapping

/-!
# Teardown of Linked Trees

The slots of a tree can be vacated one after the other, those of both subtrees before the one of
the node itself (`freeAll_postorder`). The loop over visits does this and nothing else
(`releaseWithin_eq`, `LaidOut.release_eq`): a node is read before any slot of its subtrees is
vacated, and two steps for each node are enough. Clearing a linked tree therefore succeeds, and
leaves the layout of an empty tree (`Reforms.clear`).
-/

namespace RedBlack

open RedBlack.Tree (Frame Path)

variable {K V α β : Type}

namespace Tree

/-- The values of a tree in the order in which they are released. -/
def values (tree : Tree (Cell K V)) : List V :=
  tree.postorder.map Cell.value

/-- Every value is released once. -/
theorem values_perm (tree : Tree (Cell K V)) : tree.values.Perm (tree.toList.map Cell.value) :=
  tree.postorder_perm.map Cell.value

/-- They are the values of the entries in post-order. -/
theorem values_entries (tree : Tree (Cell K V)) :
    tree.entries.postorder.map Prod.snd = tree.values := by
  rw [entries, postorder_map, List.map_map]
  rfl

theorem length_values (tree : Tree (Cell K V)) : tree.values.length = tree.size := by
  rw [values, List.length_map, length_postorder]

end Tree

/-- The layout after releasing every node. An empty tree keeps its vacant slots. -/
def Layout.clear (layout : Layout K V) : (List V × List Event) × Layout K V :=
  match layout.tree with
  | .nil => (([], []), layout)
  | .node _ _ _ _ =>
    ((layout.tree.values, [.cleared layout.tree.size]), { layout with tree := .nil, vacated := [] })

namespace Layout

theorem values_clear (layout : Layout K V) : layout.clear.1.1 = layout.tree.values := by
  rw [clear]
  split
  · next hnil =>
    rw [hnil]
    rfl
  · rfl

theorem tree_clear (layout : Layout K V) : layout.clear.2.tree = .nil := by
  rw [clear]
  split
  · next hnil => exact hnil
  · rfl

end Layout

namespace LinkedTree

variable {linked : LinkedTree K V} {tree : Tree (Cell K V)} {parent : Link}
  {occupied rest vacated : List SlotId} {layout : Layout K V}

/-! ## The nodes one after the other -/

/-- Vacate slots one after the other. Gives the values that were in them. -/
def freeAll : List SlotId → LinkM K V (List V)
  | [] => return []
  | id :: ids => do
    let (_, value) ← onArena (Arena.free id)
    return value :: (← freeAll ids)

theorem freeAll_append (ids others : List SlotId) :
    (freeAll (ids ++ others) : LinkM K V (List V)) = do
      let values ← freeAll ids
      return values ++ (← freeAll others) := by
  induction ids with
  | nil => simp only [List.nil_append, freeAll, pure_bind, bind_pure]
  | cons id ids ih =>
    simp only [List.cons_append, freeAll, ih, bind_assoc, pure_bind]

/-- The slots of cells can be vacated in any order, if they are occupied and none of them comes
twice. Nothing else is vacated. -/
theorem freeAll_eq_ok {cells : List (Cell K V)} (hholds : linked.arena.Holds occupied vacated)
    (hperm : occupied.Perm (cells.map Cell.slot ++ rest))
    (hstored : ∀ cell ∈ cells, ∃ node,
      linked.arena.node? cell.slot = some node ∧ node.entry = cell.entry) :
    ∃ after vacated', freeAll (cells.map Cell.slot) linked = .ok (cells.map Cell.value) after ∧
      after.arena.Holds rest vacated' ∧
      (∀ id ∉ cells.map Cell.slot, after.arena.node? id = linked.arena.node? id) ∧
      after.arena.capacity = linked.arena.capacity ∧ after.arena.room = linked.arena.room := by
  induction cells generalizing linked occupied vacated with
  | nil => exact ⟨linked, vacated, rfl, hholds.perm hperm.symm, fun _ _ => rfl, rfl, rfl⟩
  | cons cell cells ih =>
    obtain ⟨node, hnode, hentry⟩ := hstored cell List.mem_cons_self
    obtain ⟨arena, hfree, hholds', hsame, hcapacity, hroom⟩ := hholds.free_eq_ok hperm hnode
    -- the slot is not among the others, which are still occupied
    have hnodup := hperm.nodup_iff.1 (List.nodup_append'.1 hholds.nodup).1
    have hslot : cell.slot ∉ cells.map Cell.slot := fun hmem =>
      (List.nodup_cons.1 hnodup).1 (List.mem_append_left _ hmem)
    let between : LinkedTree K V := { linked with arena }
    have hstored' : ∀ other ∈ cells, ∃ node,
        between.arena.node? other.slot = some node ∧ node.entry = other.entry := by
      intro other hother
      have hne : cell.slot ≠ other.slot := fun heq =>
        hslot (heq ▸ List.mem_map_of_mem hother)
      have hnode' : between.arena.node? other.slot = linked.arena.node? other.slot :=
        (hsame other.slot).trans (if_neg hne)
      rw [hnode']
      exact hstored other (List.mem_cons_of_mem _ hother)
    have hbetween : between.arena.Holds (cells.map Cell.slot ++ rest) _ := hholds'
    obtain ⟨after, vacated', hrest, hholds'', hsame', hcapacity', hroom'⟩ :=
      ih hbetween (List.Perm.refl _) hstored'
    refine ⟨after, vacated', ?_, hholds'', fun id hid => ?_, hcapacity'.trans hcapacity,
      hroom'.trans hroom⟩
    · have hvalue : node.value = cell.value := congrArg Prod.snd hentry
      refine (bind_of_ok (onArena_of_ok hfree)).trans ((bind_of_ok hrest).trans ?_)
      rw [hvalue]
      rfl
    · rw [List.map_cons, List.mem_cons, not_or] at hid
      rw [hsame' id hid.2, hsame, if_neg (Ne.symm hid.1)]

/-- The slots of a stored tree can be vacated, children before their parents. -/
theorem freeAll_postorder (hstores : linked.arena.Stores parent tree)
    (hholds : linked.arena.Holds occupied vacated) (hperm : occupied.Perm (tree.slots ++ rest)) :
    ∃ after vacated',
      freeAll (tree.postorder.map Cell.slot) linked = .ok tree.values after ∧
      after.arena.Holds rest vacated' ∧
      (∀ id ∉ tree.slots, after.arena.node? id = linked.arena.node? id) ∧
      after.arena.capacity = linked.arena.capacity ∧ after.arena.room = linked.arena.room := by
  have hslots : (tree.postorder.map Cell.slot).Perm tree.slots :=
    tree.postorder_perm.map Cell.slot
  obtain ⟨after, vacated', hfree, hholds', hsame, hsizes⟩ :=
    freeAll_eq_ok hholds (hperm.trans (hslots.symm.append_right rest)) fun cell hcell =>
      hstores.exists_entry_eq (tree.postorder_perm.mem_iff.1 hcell)
  exact ⟨after, vacated', hfree, hholds',
    fun id hid => hsame id fun hmem => hid (hslots.mem_iff.1 hmem), hsizes⟩

/-! ## The loop -/

/-- Two actions that behave alike can be continued alike. -/
theorem bind_congr_of_eq {first second : LinkM K V α} {before after : LinkedTree K V}
    (h : first before = second after) (next : α → LinkM K V β) :
    (first >>= next) before = (second >>= next) after := by
  simp only [bind, EStateM.bind, h]

/-- One step on the way down. -/
theorem releaseWithin_enter {node : Node K V} {id : SlotId}
    (hnode : linked.arena.node? id = some node) (steps : Nat) (visits : List Visit) :
    releaseWithin (steps + 1) (.enter id :: visits) linked =
      releaseWithin steps
        (Visit.into node.left ++ (Visit.into node.right ++ .leave id :: visits)) linked := by
  rw [releaseWithin, bind_of_ok (node_of_node? hnode), ← List.append_assoc]

/-- Visiting a stored tree vacates its slots, children before their parents, before anything
else is visited. -/
theorem releaseWithin_eq (hstores : linked.arena.Stores parent tree)
    (hholds : linked.arena.Holds occupied vacated) (hperm : occupied.Perm (tree.slots ++ rest))
    (steps : Nat) (visits : List Visit) :
    releaseWithin (2 * tree.size + steps) (Visit.into tree.link ++ visits) linked =
      (do
        let values ← freeAll (tree.postorder.map Cell.slot)
        return values ++ (← releaseWithin steps visits)) linked := by
  induction tree generalizing linked parent occupied rest vacated steps visits with
  | nil =>
    simp only [Tree.size, Tree.postorder, List.map_nil, freeAll, pure_bind, List.nil_append,
      bind_pure, Nat.mul_zero, Nat.zero_add]
    rfl
  | node color left cell right ihl ihr =>
    obtain ⟨hnode, hleft, hright⟩ := hstores
    have hslots : (Tree.node color left cell right).slots ++ rest =
        left.slots ++ (cell.slot :: (right.slots ++ rest)) := by
      simp only [Tree.slots, Tree.toList, List.map_append, List.map_cons, List.append_assoc,
        List.cons_append]
    rw [hslots] at hperm
    have hnodup := hperm.nodup_iff.1 (List.nodup_append'.1 hholds.nodup).1
    have hdisjoint := (List.nodup_append'.1 hnodup).2.2
    rw [List.disjoint_cons_right, List.disjoint_append_right] at hdisjoint
    obtain ⟨-, hleftright, -⟩ := hdisjoint
    -- after the left subtree, the right one is still stored
    obtain ⟨first, _, hfirst, hholds', hsame, -⟩ := freeAll_postorder hleft hholds hperm
    have hright' : first.arena.Stores (some cell.slot) right :=
      hright.congr fun id hid => hsame id fun hmem => hleftright hmem hid
    obtain ⟨second, _, hsecond, -⟩ := freeAll_postorder hright' hholds' List.perm_middle.symm
    -- one step to enter the node and one to leave it
    have hsteps : 2 * (Tree.node color left cell right).size + steps =
        2 * left.size + (2 * right.size + (steps + 1)) + 1 := by
      rw [Tree.size]
      omega
    rw [hsteps]
    refine (releaseWithin_enter hnode _ visits).trans ?_
    refine (ihl hleft hholds hperm _ _).trans ((bind_of_ok hfirst).trans ?_)
    refine (bind_congr_of_eq (ihr hright' hholds' List.perm_middle.symm (steps + 1)
      (.leave cell.slot :: visits)) _).trans ?_
    simp only [Tree.postorder, List.map_append, List.map_cons, List.map_nil, freeAll_append,
      freeAll, releaseWithin, bind_assoc, pure_bind, List.append_assoc, List.cons_append,
      List.nil_append]
    rw [bind_of_ok hfirst, bind_of_ok hsecond]

/-! ## Clearing -/

/-- The slots of the whole tree can be vacated, children before their parents, and then nothing
is occupied. -/
theorem LaidOut.freeAll_eq_ok (h : linked.LaidOut layout) :
    ∃ after vacated',
      freeAll (layout.tree.postorder.map Cell.slot) linked = .ok layout.tree.values after ∧
      after.arena.Holds [] vacated' ∧
      after.arena.capacity = layout.capacity ∧ after.arena.room = layout.room := by
  have hperm : layout.tree.slots.Perm (layout.tree.slots ++ []) := by
    rw [List.append_nil]
  obtain ⟨after, vacated', hfree, hholds, -, hcapacity, hroom⟩ :=
    freeAll_postorder h.shows.2 h.storage hperm
  exact ⟨after, vacated', hfree, hholds, hcapacity.trans h.capacity, hroom.trans h.room⟩

/-- The loop that starts at the root vacates the slots of the tree one after the other, children
before their parents. -/
theorem LaidOut.release_eq (h : linked.LaidOut layout) {root : SlotId}
    (hroot : layout.tree.link = some root) :
    releaseWithin (2 * linked.arena.budget) [.enter root] linked =
      freeAll (layout.tree.postorder.map Cell.slot) linked := by
  have hperm : layout.tree.slots.Perm (layout.tree.slots ++ []) := by
    rw [List.append_nil]
  obtain ⟨steps, hsteps⟩ : ∃ k, 2 * linked.arena.budget = 2 * layout.tree.size + k :=
    Nat.exists_eq_add_of_le (Nat.mul_le_mul_left 2 (Nat.le_of_lt h.size_lt_budget))
  -- no visits are left over, whatever steps are
  have hnothing : (releaseWithin steps [] : LinkM K V (List V)) = pure [] := by
    cases steps <;> rfl
  have hloop := releaseWithin_eq h.shows.2 h.storage hperm steps []
  simp only [hroot, ← hsteps, hnothing, pure_bind, List.append_nil, bind_pure] at hloop
  exact hloop

/-- Clearing releases every node and forgets the slots. -/
theorem Reforms.clear (layout : Layout K V) :
    Reforms LinkedTree.clear layout layout.clear.2 layout.clear.1 := by
  obtain ⟨tree, vacated, capacity, room⟩ := layout
  intro linked h
  cases tree with
  | nil =>
    have hroot : LinkedTree.getRoot linked = .ok none linked :=
      congrArg (EStateM.Result.ok · linked) h.shows.1
    exact ⟨linked, bind_of_ok hroot, h⟩
  | node color left cell right =>
    obtain ⟨after, _, hfree, hholds, hcapacity, hroom⟩ := h.freeAll_eq_ok
    obtain ⟨arena, hreset, hholds', hcapacity', hroom'⟩ := hholds.reset_eq_ok rfl
    have hforget : forget after = .ok () (ofArena arena) := bind_of_ok (onArena_of_ok hreset)
    refine ⟨ofArena arena, ?_, ⟨rfl, trivial⟩, hholds', ⟨0, .nil⟩, rfl,
      hcapacity'.trans hcapacity, hroom'.trans hroom⟩
    have hroot : LinkedTree.getRoot linked = .ok (some cell.slot) linked :=
      congrArg (EStateM.Result.ok · linked) h.shows.1
    have hsize : getSize linked = .ok (Tree.node color left cell right).size linked :=
      congrArg (EStateM.Result.ok · linked) h.size
    have hrelease := (h.release_eq rfl).trans hfree
    refine (bind_of_ok hroot).trans ((bind_of_ok hsize).trans ?_)
    exact (bind_of_ok rfl).trans ((bind_of_ok hrelease).trans (bind_of_ok hforget))

end LinkedTree

end RedBlack
