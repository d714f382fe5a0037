import Mathlib.Data.List.Nodup
import RedBlack.Linked.Lemmas
import RedBlack.Proofs.Tree.Path

/-!
# Linked Trees as Trees

A linked tree shows a tree of cells if the links from its root form that tree and every
parent link names the owner of its node. A `Cell` is an entry together with its slot.

The module introduces:

* `Arena.Stores arena parent tree` — the arena holds the nodes of `tree`, and the parent
  link of its root is `parent`;
* `LinkedTree.Leads linked path hole` — the links form the frames of `path` around a place
  that holds the link `hole`;
* `LinkedTree.Shows linked tree` — the links from the root form `tree`. A tree in a place is
  shown exactly if the path leads to it and it is stored there (`shows_under_iff`);
* `LinkedTree.alter` and `LinkedTree.attach` — the effect of changing one node and of putting a
  link into a place, and how they act on the three relations above.
-/

namespace RedBlack

/-- An entry together with the slot it lies in. -/
structure Cell (K V : Type) where
  /-- The slot. -/
  slot : SlotId
  /-- The stored key. -/
  key : K
  /-- The stored value. -/
  value : V

variable {K V : Type}

/-- The key and value of a cell. -/
def Cell.entry (cell : Cell K V) : K × V :=
  (cell.key, cell.value)

/-- The cell with another value. -/
def Cell.withValue (cell : Cell K V) (value : V) : Cell K V :=
  { cell with value }

namespace Tree

/-- The link to the root. -/
def link : Tree (Cell K V) → Link
  | nil => none
  | node _ _ cell _ => some cell.slot

/-- The slots of a tree, from left to right. -/
def slots (tree : Tree (Cell K V)) : List SlotId :=
  tree.toList.map Cell.slot

/-- The stored node that a frame stands for, if `hole` is the link in the place of the frame
and `parent` the link to the owner. -/
def Frame.node (frame : Frame (Cell K V)) (hole parent : Link) : Node K V :=
  match frame.side with
  | .left =>
    { key := frame.entry.key, value := frame.entry.value, color := frame.color, parent
      left := hole, right := frame.sibling.link }
  | .right =>
    { key := frame.entry.key, value := frame.entry.value, color := frame.color, parent
      left := frame.sibling.link, right := hole }

namespace Path

/-- The link to the node that owns a place. -/
def owner : Path (Cell K V) → Link
  | [] => none
  | frame :: _ => some frame.entry.slot

/-- The slots of the frames of a path and of their siblings. -/
def slots : Path (Cell K V) → List SlotId
  | [] => []
  | frame :: path => frame.entry.slot :: (frame.sibling.slots ++ slots path)

end Path

namespace Frame

variable (frame : Frame (Cell K V)) (hole parent new : Link)

@[simp]
theorem parent_node : (frame.node hole parent).parent = parent := by
  rcases frame with ⟨_ | _, _, _, _⟩ <;> rfl

@[simp]
theorem color_node : (frame.node hole parent).color = frame.color := by
  rcases frame with ⟨_ | _, _, _, _⟩ <;> rfl

@[simp]
theorem key_node : (frame.node hole parent).key = frame.entry.key := by
  rcases frame with ⟨_ | _, _, _, _⟩ <;> rfl

@[simp]
theorem value_node : (frame.node hole parent).value = frame.entry.value := by
  rcases frame with ⟨_ | _, _, _, _⟩ <;> rfl

@[simp]
theorem child_node : (frame.node hole parent).child frame.side = hole := by
  rcases frame with ⟨_ | _, _, _, _⟩ <;> rfl

@[simp]
theorem child_opposite_node :
    (frame.node hole parent).child frame.side.opposite = frame.sibling.link := by
  rcases frame with ⟨_ | _, _, _, _⟩ <;> rfl

@[simp]
theorem withChild_node :
    (frame.node hole parent).withChild frame.side new = frame.node new parent := by
  rcases frame with ⟨_ | _, _, _, _⟩ <;> rfl

@[simp]
theorem withParent_node : (frame.node hole parent).withParent new = frame.node hole new := by
  rcases frame with ⟨_ | _, _, _, _⟩ <;> rfl

@[simp]
theorem entry_node : (frame.node hole parent).entry = frame.entry.entry := by
  rcases frame with ⟨_ | _, _, _, _⟩ <;> rfl

@[simp]
theorem link_close (tree : Tree (Cell K V)) : (frame.close tree).link = some frame.entry.slot := by
  rcases frame with ⟨_ | _, _, _, _⟩ <;> rfl

end Frame

@[simp]
theorem length_slots (tree : Tree (Cell K V)) : tree.slots.length = tree.size := by
  rw [slots, List.length_map, length_toList]

@[simp]
theorem slots_nil : (nil : Tree (Cell K V)).slots = [] := rfl

/-- The slots of a closed frame are those of the frame, of its sibling and of the tree in
it. -/
theorem slots_close_perm (frame : Frame (Cell K V)) (tree : Tree (Cell K V)) :
    (frame.close tree).slots.Perm
      (frame.entry.slot :: (frame.sibling.slots ++ tree.slots)) := by
  obtain ⟨side, color, entry, sibling⟩ := frame
  cases side with
  | left =>
    simp only [Frame.close, join, slots, toList, List.map_append, List.map_cons]
    exact List.perm_middle.trans (List.perm_append_comm.cons _)
  | right =>
    simp only [Frame.close, join, slots, toList, List.map_append, List.map_cons]
    exact List.perm_middle

/-- The slots of a tree in a place are those of the tree and those of the path. -/
theorem slots_under_perm (tree : Tree (Cell K V)) (path : Path (Cell K V)) :
    (tree.under path).slots.Perm (tree.slots ++ Path.slots path) := by
  induction path generalizing tree with
  | nil => simp [Path.slots]
  | cons frame path ih =>
    refine (ih (frame.close tree)).trans ?_
    refine ((slots_close_perm frame tree).append_right _).trans ?_
    -- both sides list the same three parts, in another order
    rw [Path.slots, List.perm_iff_count]
    intro slot
    simp only [List.count_append, List.count_cons]
    omega

/-- The slots of a tree in a place, one by one. -/
theorem mem_slots_under {tree : Tree (Cell K V)} {path : Path (Cell K V)} {id : SlotId} :
    id ∈ (tree.under path).slots ↔ id ∈ tree.slots ∨ id ∈ Path.slots path := by
  rw [(slots_under_perm tree path).mem_iff, List.mem_append]

/-- A tree and its place share no slot if no slot occurs twice. -/
theorem nodup_slots_under {tree : Tree (Cell K V)} {path : Path (Cell K V)} :
    (tree.under path).slots.Nodup ↔
      tree.slots.Nodup ∧ (Path.slots path).Nodup ∧ tree.slots.Disjoint (Path.slots path) := by
  rw [(slots_under_perm tree path).nodup_iff, List.nodup_append']

theorem mem_slots_close {frame : Frame (Cell K V)} {tree : Tree (Cell K V)} {id : SlotId} :
    id ∈ (frame.close tree).slots ↔
      id = frame.entry.slot ∨ id ∈ frame.sibling.slots ∨ id ∈ tree.slots := by
  rw [(slots_close_perm frame tree).mem_iff, List.mem_cons, List.mem_append]

/-- In a closed frame no slot occurs twice if none does in its parts and they share none. -/
theorem nodup_slots_close {frame : Frame (Cell K V)} {tree : Tree (Cell K V)} :
    (frame.close tree).slots.Nodup ↔
      frame.entry.slot ∉ frame.sibling.slots ∧ frame.entry.slot ∉ tree.slots ∧
        frame.sibling.slots.Nodup ∧ tree.slots.Nodup ∧
          frame.sibling.slots.Disjoint tree.slots := by
  rw [(slots_close_perm frame tree).nodup_iff, List.nodup_cons, List.nodup_append',
    List.mem_append, not_or, and_assoc]

/-- The root of a tree lies in one of its slots. -/
theorem mem_slots_of_link {tree : Tree (Cell K V)} {id : SlotId} (h : tree.link = some id) :
    id ∈ tree.slots := by
  cases tree with
  | nil => cases h
  | node color left cell right =>
    cases h
    simp [slots, toList]

theorem exists_link_of_red {tree : Tree (Cell K V)} (h : tree.color = .red) :
    ∃ id, tree.link = some id := by
  cases tree with
  | nil => cases h
  | node color left cell right => exact ⟨_, rfl⟩

theorem exists_link_of_toList_ne_nil {tree : Tree (Cell K V)} (h : tree.toList ≠ []) :
    ∃ id, tree.link = some id := by
  cases tree with
  | nil => exact absurd rfl h
  | node color left cell right => exact ⟨_, rfl⟩

/-- A tree with a spine has a root. -/
theorem exists_link_of_spine {side : Side} {tree : Tree (Cell K V)} {frame : Frame (Cell K V)}
    {path : Path (Cell K V)} (h : tree.spine side [] = frame :: path) :
    ∃ id, tree.link = some id := by
  cases tree with
  | nil => cases h
  | node color left cell right => exact ⟨_, rfl⟩

/-- The owner of a place lies in one of the slots of the path. -/
theorem Path.mem_slots_of_owner {path : Path (Cell K V)} {id : SlotId}
    (h : owner path = some id) : id ∈ slots path := by
  cases path with
  | nil => cases h
  | cons frame path =>
    cases h
    simp [slots]

/-- The root of a tree with a place in it lies on the path to the place. -/
theorem exists_root_mem_slots (tree : Tree (Cell K V)) (frame : Frame (Cell K V))
    (path : Path (Cell K V)) :
    ∃ id ∈ Path.slots (frame :: path), (tree.under (frame :: path)).link = some id := by
  induction path generalizing tree frame with
  | nil => exact ⟨frame.entry.slot, List.mem_cons_self, frame.link_close tree⟩
  | cons upper path ih =>
    obtain ⟨id, hid, hlink⟩ := ih (frame.close tree) upper
    exact ⟨id, List.mem_cons_of_mem _ (List.mem_append_right _ hid), hlink⟩

/-- The root of a tree with a place in it does not depend on what lies in the place. -/
theorem link_under_cons (tree other : Tree (Cell K V)) (frame : Frame (Cell K V))
    (path : Path (Cell K V)) :
    (tree.under (frame :: path)).link = (other.under (frame :: path)).link := by
  induction path generalizing tree other frame with
  | nil => exact (frame.link_close tree).trans (frame.link_close other).symm
  | cons upper path ih => exact ih (frame.close tree) (frame.close other) upper

/-- What lies in a place below the root is not the root. -/
theorem link_under_ne {tree : Tree (Cell K V)} {frame : Frame (Cell K V)}
    {path : Path (Cell K V)} (h : (tree.under (frame :: path)).slots.Nodup) :
    tree.link ≠ (tree.under (frame :: path)).link := by
  obtain ⟨id, hid, hroot⟩ := exists_root_mem_slots tree frame path
  rw [hroot]
  -- the root lies on the path, and the place shares no slot with it
  intro hlink
  exact (nodup_slots_under.1 h).2.2 (mem_slots_of_link hlink) hid

end Tree

/-! ## Changing one node -/

namespace LinkedTree

open RedBlack.Tree (Frame Path)

/-- Change the node at the end of a link, if there is one. -/
def alter (link : Link) (change : Node K V → Node K V) (linked : LinkedTree K V) :
    LinkedTree K V :=
  match link with
  | none => linked
  | some id =>
    match linked.arena.node? id with
    | none => linked
    | some node => linked.write id (change node)

variable {linked after : LinkedTree K V} {link : Link} {change : Node K V → Node K V}

@[simp]
theorem root_alter : (linked.alter link change).root = linked.root := by
  unfold alter; split <;> [skip; split] <;> rfl

/-- Only the node at the end of the link changes. -/
@[simp]
theorem node?_alter (other : SlotId) :
    (linked.alter link change).arena.node? other =
      if link = some other then (linked.arena.node? other).map change
      else linked.arena.node? other := by
  -- a link to nowhere and a link to a vacated slot both change nothing
  cases link with
  | none => simp [alter]
  | some id =>
    cases hnode : linked.arena.node? id with
    | none =>
      by_cases h : id = other
      · subst h
        simp [alter, hnode]
      · simp [alter, hnode, h]
    | some node =>
      by_cases h : id = other
      · subst h
        simp [alter, hnode, write, Arena.node?_write (Arena.lt_size_of_node? hnode)]
      · simp [alter, hnode, h, write, Arena.node?_write (Arena.lt_size_of_node? hnode)]

/-- No other slot is written. -/
theorem slots_alter {other : SlotId} (h : link ≠ some other) :
    (linked.alter link change).arena.slots[other]? = linked.arena.slots[other]? := by
  cases link with
  | none => rfl
  | some id =>
    have hne : id ≠ other := fun heq => h (congrArg some heq)
    rw [alter]
    split
    · rfl
    · exact Array.getElem?_setIfInBounds_ne hne

/-- Changing a live node is an alteration. -/
theorem modifyNode_eq {id : SlotId} {node : Node K V} (h : linked.arena.node? id = some node) :
    modifyNode id change linked = .ok () (linked.alter (some id) change) := by
  rw [modifyNode_of_node? h, alter]
  simp only [h]

end LinkedTree

/-! ## Stored trees -/

/-- The arena holds the nodes of a tree whose root has a given parent link. -/
def Arena.Stores (arena : Arena K V) : Link → Tree (Cell K V) → Prop
  | _, .nil => True
  | parent, .node color left cell right =>
    arena.node? cell.slot = some (Tree.Frame.node ⟨.left, color, cell, right⟩ left.link parent) ∧
      arena.Stores (some cell.slot) left ∧ arena.Stores (some cell.slot) right

namespace Arena.Stores

open RedBlack.Tree (Frame Path)

variable {arena : Arena K V} {linked : LinkedTree K V} {tree : Tree (Cell K V)}
  {parent link : Link} {change : Node K V → Node K V}

/-- A closed frame is stored if its node is and both subtrees are stored below it. -/
theorem close_iff {frame : Frame (Cell K V)} :
    arena.Stores parent (frame.close tree) ↔
      arena.node? frame.entry.slot = some (frame.node tree.link parent) ∧
        arena.Stores (some frame.entry.slot) tree ∧
          arena.Stores (some frame.entry.slot) frame.sibling := by
  obtain ⟨side, color, cell, sibling⟩ := frame
  cases side with
  | left => rfl
  | right => exact and_congr_right fun _ => and_comm

/-- Storing a tree depends only on the nodes in its slots. -/
theorem congr {other : Arena K V} (h : arena.Stores parent tree)
    (hsame : ∀ id ∈ tree.slots, other.node? id = arena.node? id) : other.Stores parent tree := by
  induction tree generalizing parent with
  | nil => trivial
  | node color left cell right ihl ihr =>
    simp only [Tree.slots, Tree.toList, List.map_append, List.map_cons] at hsame
    obtain ⟨hnode, hleft, hright⟩ := h
    refine ⟨?_, ihl hleft ?_, ihr hright ?_⟩
    · rw [hsame cell.slot (by simp), hnode]
    · intro id hid
      exact hsame id (List.mem_append_left _ hid)
    · intro id hid
      exact hsame id (List.mem_append_right _ (List.mem_cons_of_mem _ hid))

/-- A node outside of a tree can be changed. -/
theorem alter (h : linked.arena.Stores parent tree)
    (hlink : ∀ id ∈ tree.slots, link ≠ some id) :
    (linked.alter link change).arena.Stores parent tree := by
  refine h.congr fun id hid => ?_
  rw [LinkedTree.node?_alter, if_neg (hlink id hid)]

/-- The root of a tree can be given another parent. -/
theorem adopt {new : Link} (h : linked.arena.Stores parent tree) (hnodup : tree.slots.Nodup) :
    (linked.alter tree.link (Node.withParent · new)).arena.Stores new tree := by
  cases tree with
  | nil => trivial
  | node color left cell right =>
    have hclose : (Frame.close ⟨.left, color, cell, right⟩ left).slots.Nodup := hnodup
    obtain ⟨hright', hleft', -⟩ := Tree.nodup_slots_close.1 hclose
    obtain ⟨hnode, hleft, hright⟩ := h
    -- only the root is written, and it lies in neither of its subtrees
    refine ⟨?_, hleft.alter ?_, hright.alter ?_⟩
    · simp [Tree.link, hnode]
    · rintro id hid ⟨⟩
      exact hleft' hid
    · rintro id hid ⟨⟩
      exact hright' hid

/-- The root of a stored tree is a live node. -/
theorem exists_node {id : SlotId} (h : arena.Stores parent tree) (hlink : tree.link = some id) :
    ∃ node, arena.node? id = some node := by
  cases tree with
  | nil => cases hlink
  | node color left cell right =>
    cases hlink
    exact ⟨_, h.1⟩

/-- Every slot of a stored tree holds a live node. -/
theorem exists_node_of_mem {id : SlotId} (h : arena.Stores parent tree) (hid : id ∈ tree.slots) :
    ∃ node, arena.node? id = some node := by
  induction tree generalizing parent with
  | nil => cases hid
  | node color left cell right ihl ihr =>
    obtain ⟨hnode, hleft, hright⟩ := h
    simp only [Tree.slots, Tree.toList, List.map_append, List.map_cons, List.mem_append,
      List.mem_cons] at hid
    rcases hid with hid | rfl | hid
    · exact ihl hleft hid
    · exact ⟨_, hnode⟩
    · exact ihr hright hid

/-- The node in the slot of a cell has the entry of the cell. -/
theorem exists_entry_eq {cell : Cell K V} (h : arena.Stores parent tree)
    (hcell : cell ∈ tree.toList) :
    ∃ node, arena.node? cell.slot = some node ∧ node.entry = cell.entry := by
  induction tree generalizing parent with
  | nil => cases hcell
  | node color left root right ihl ihr =>
    obtain ⟨hnode, hleft, hright⟩ := h
    rcases List.mem_append.1 hcell with hcell | hcell
    · exact ihl hleft hcell
    rcases List.mem_cons.1 hcell with rfl | hcell
    · exact ⟨_, hnode, rfl⟩
    · exact ihr hright hcell

end Arena.Stores

namespace LinkedTree

open RedBlack.Tree (Frame Path)

variable {linked after : LinkedTree K V} {tree : Tree (Cell K V)} {frame : Frame (Cell K V)}
  {path : Path (Cell K V)} {link hole : Link} {change : Node K V → Node K V}

/-- The links form the frames of a path around a place that holds a given link. -/
def Leads (linked : LinkedTree K V) : Path (Cell K V) → Link → Prop
  | [], hole => linked.root = hole
  | frame :: path, hole =>
    linked.arena.node? frame.entry.slot = some (frame.node hole (Path.owner path)) ∧
      linked.arena.Stores (some frame.entry.slot) frame.sibling ∧
        linked.Leads path (some frame.entry.slot)

/-- The links from the root form a tree. -/
def Shows (linked : LinkedTree K V) (tree : Tree (Cell K V)) : Prop :=
  linked.root = tree.link ∧ linked.arena.Stores none tree

/-- A tree in a place is shown exactly if the path leads to its root and it is stored
there. -/
theorem shows_under_iff :
    linked.Shows (tree.under path) ↔
      linked.Leads path tree.link ∧ linked.arena.Stores (Path.owner path) tree := by
  induction path generalizing tree with
  | nil => rfl
  | cons frame path ih =>
    -- the lowest frame moves from the tree over to the path
    rw [Tree.under_cons, ih, Arena.Stores.close_iff, Frame.link_close, Leads]
    constructor
    · rintro ⟨hpath, hnode, htree, hsibling⟩
      exact ⟨⟨hnode, hsibling, hpath⟩, htree⟩
    · rintro ⟨⟨hnode, hsibling, hpath⟩, htree⟩
      exact ⟨hpath, hnode, htree, hsibling⟩

/-- Where a path leads depends only on the root and the nodes in its slots. -/
theorem Leads.congr (h : linked.Leads path hole) (hroot : after.root = linked.root)
    (hsame : ∀ id ∈ Path.slots path, after.arena.node? id = linked.arena.node? id) :
    after.Leads path hole := by
  induction path generalizing hole with
  | nil => exact hroot.trans h
  | cons frame path ih =>
    obtain ⟨hnode, hsibling, hpath⟩ := h
    simp only [Path.slots, List.mem_cons, List.mem_append, or_imp, forall_and, forall_eq] at hsame
    obtain ⟨hself, hsiblings, hrest⟩ := hsame
    exact ⟨hself.trans hnode, hsibling.congr hsiblings, ih hpath hrest⟩

theorem Leads.alter (h : linked.Leads path hole)
    (hlink : ∀ id ∈ Path.slots path, link ≠ some id) :
    (linked.alter link change).Leads path hole := by
  refine h.congr root_alter fun id hid => ?_
  rw [node?_alter, if_neg (hlink id hid)]

/-- Put a link into the place at the end of a path. -/
def attach (path : Path (Cell K V)) (link : Link) (linked : LinkedTree K V) : LinkedTree K V :=
  match path with
  | [] => { linked with root := link }
  | frame :: _ => linked.alter (some frame.entry.slot) (Node.withChild · frame.side link)

/-- Only the owner of the place changes. -/
@[simp]
theorem node?_attach (other : SlotId) :
    (linked.attach path link).arena.node? other =
      if Path.owner path = some other then
        (linked.arena.node? other).map fun node =>
          node.withChild ((path.head?.map Frame.side).getD .left) link
      else linked.arena.node? other := by
  cases path with
  | nil => rfl
  | cons frame path => simp [attach, Path.owner]

/-- The path leads to the link that was put into its place. -/
theorem Leads.attach (h : linked.Leads path hole) (hnodup : (Path.slots path).Nodup) :
    (linked.attach path link).Leads path link := by
  cases path with
  | nil => rfl
  | cons frame path =>
    obtain ⟨hnode, hsibling, hpath⟩ := h
    simp only [Path.slots, List.nodup_cons, List.mem_append, not_or] at hnodup
    obtain ⟨⟨hsibling', hpath'⟩, -⟩ := hnodup
    change (linked.alter _ _).Leads (frame :: path) link
    -- only the owner is written, and it lies neither in its sibling nor further up
    refine ⟨?_, hsibling.alter ?_, hpath.alter ?_⟩
    · simp [hnode]
    · rintro id hid ⟨⟩
      exact hsibling' hid
    · rintro id hid ⟨⟩
      exact hpath' hid

/-- A tree outside of the path stays stored when a link is put into its place. -/
theorem stores_attach {parent : Link} (h : linked.arena.Stores parent tree)
    (howner : ∀ id ∈ tree.slots, Path.owner path ≠ some id) :
    (linked.attach path link).arena.Stores parent tree := by
  refine h.congr fun id hid => ?_
  rw [node?_attach, if_neg (howner id hid)]

end LinkedTree

end RedBlack
