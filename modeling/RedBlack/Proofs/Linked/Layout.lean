import RedBlack.Proofs.Arena.Storage
import RedBlack.Proofs.Linked.Insertion
import RedBlack.Proofs.Linked.Removal
import RedBlack.Proofs.Linked.Unlinking

/-!
# Layouts

Everything that holds of a linked tree between two operations, in one place. A `Layout` is the
tree of cells together with the vacant slots and the capacity; `LaidOut linked layout` says
that the links form the tree, that it is balanced, that its slots are exactly the occupied
ones, and that both counts are its size.

Storing and erasing an entry take a linked tree from one layout to another, and the new layout
is computed from the old one alone (`Layout.insert`, `Layout.erase`). In particular neither
of them can end in a fault.
-/

namespace RedBlack

open RedBlack.Tree (Frame Path)

variable {K V α β : Type}

/-- A linked tree with its links followed. -/
structure Layout (K V : Type) where
  /-- The tree that the links form. -/
  tree : Tree (Cell K V)
  /-- The vacant slots, the one vacated last first. -/
  vacated : List SlotId
  /-- The number of slots that fit without growing. -/
  capacity : Nat
  /-- What there is room for. -/
  room : Room

namespace Layout

/-- The layout after storing an entry in the empty place at the end of a path, with the
answer. -/
def insert (layout : Layout K V) (path : Path (Cell K V)) (key : K) (value : V) :
    (Except Shortage Unit × List Event) × Layout K V :=
  match Arena.allot layout.tree.size layout.vacated layout.capacity layout.room with
  | .error cause => ((.error cause, [.refused cause 1]), layout)
  | .ok (slot, vacated, capacity) =>
    let (tree, events) :=
      (Tree.node .red .nil (⟨slot, key, value⟩ : Cell K V) .nil).repairRed path
    ((.ok (), events), { layout with tree, vacated, capacity })

/-- The layout after erasing a node, with the answer. -/
def erase (layout : Layout K V) (color : Color) (left : Tree (Cell K V)) (cell : Cell K V)
    (right : Tree (Cell K V)) (path : Path (Cell K V)) :
    ((K × V) × List Event) × Layout K V :=
  let (tree, events) := Tree.erase color left right path
  ((cell.entry, events), { layout with tree, vacated := cell.slot :: layout.vacated })

end Layout

namespace LinkedTree

/-- A linked tree has a layout, and all counts and colours are in order. -/
structure LaidOut (linked : LinkedTree K V) (layout : Layout K V) : Prop where
  /-- The links form the tree. -/
  shows : linked.Shows layout.tree
  /-- The tree lies in the occupied slots. -/
  storage : linked.arena.Holds layout.tree.slots layout.vacated
  /-- The tree follows the colouring rules. -/
  balanced : ∃ n, layout.tree.Balanced .black n
  /-- The entries are counted. -/
  size : linked.size = layout.tree.size
  /-- The capacity is that of the storage. -/
  capacity : linked.arena.capacity = layout.capacity
  /-- The room is that of the storage. -/
  room : linked.arena.room = layout.room

/-- The linked tree in storage of another capacity. -/
def resized (linked : LinkedTree K V) (capacity : Nat) : LinkedTree K V :=
  { linked with arena := { linked.arena with capacity } }

/-- The action gives `answer` on every linked tree with the layout `layout`, and leaves one
with the layout `new`. -/
def Reforms (action : LinkM K V α) (layout new : Layout K V) (answer : α) : Prop :=
  ∀ linked, linked.LaidOut layout →
    ∃ after, action linked = .ok answer after ∧ after.LaidOut new

variable {linked after : LinkedTree K V} {layout : Layout K V} {tree new : Tree (Cell K V)}
  {path : Path (Cell K V)} {occupied vacated : List SlotId} {id : SlotId}

/-! ## What relinking keeps -/

namespace Relinked

variable (h : linked.Relinked after)

include h

theorem live : after.arena.live = linked.arena.live :=
  (congrArg Arena.live h.bare :)

theorem capacity : after.arena.capacity = linked.arena.capacity :=
  (congrArg Arena.capacity h.bare :)

theorem room : after.arena.room = linked.arena.room :=
  (congrArg Arena.room h.bare :)

theorem lastVacated : after.arena.lastVacated = linked.arena.lastVacated :=
  (congrArg Arena.lastVacated h.bare :)

/-- The slots keep their contents up to links and colours. -/
theorem bare_slot (id : SlotId) :
    after.arena.slots[id]?.map Slot.bare = linked.arena.slots[id]?.map Slot.bare := by
  have hslots : after.arena.slots.map Slot.bare = linked.arena.slots.map Slot.bare :=
    congrArg Arena.slots h.bare
  rw [← Array.getElem?_map, ← Array.getElem?_map, hslots]

theorem size_slots : after.arena.slots.size = linked.arena.slots.size := by
  have hslots : after.arena.slots.map Slot.bare = linked.arena.slots.map Slot.bare :=
    congrArg Arena.slots h.bare
  rw [← Array.size_map, hslots, Array.size_map]

/-- The nodes stay in their slots, and the free list stays as it is. -/
theorem holds (hstorage : linked.arena.Holds occupied vacated) :
    after.arena.Holds occupied vacated where
  chain := by
    rw [h.lastVacated]
    refine hstorage.chain.congr fun id _ next hslot => ?_
    have hbare := h.bare_slot id
    rw [hslot] at hbare
    obtain ⟨slot, hslot, hbare⟩ := Option.map_eq_some_iff.1 hbare
    cases slot with
    | occupied node => cases hbare
    | vacant other =>
      cases hbare
      exact hslot
  exists_node := fun id hid => by
    obtain ⟨node, hnode⟩ := hstorage.exists_node id hid
    obtain ⟨new, hnew, -⟩ := h.exists_node hnode
    exact ⟨new, hnew⟩
  partition := h.size_slots ▸ hstorage.partition
  live := h.live.trans hstorage.live

end Relinked

namespace LaidOut

variable (h : linked.LaidOut layout)

include h

/-- No slot of the tree occurs twice. -/
theorem depicts : linked.Depicts layout.tree :=
  ⟨h.shows, (List.nodup_append'.1 h.storage.nodup).1⟩

/-- Every node fits into the budget. -/
theorem size_lt_budget : layout.tree.size < linked.arena.budget :=
  Nat.lt_succ_of_le h.depicts.size_le

/-- Above every place of the tree, the root is not red. -/
theorem color_getLast?_ne (htree : tree.under path = layout.tree) :
    ∀ frame ∈ path.getLast?, frame.color ≠ .red := by
  intro frame hframe
  obtain ⟨n, hbalanced⟩ := h.balanced
  rw [← Tree.color_under hframe, htree, hbalanced.color_eq]
  decide

end LaidOut

/-! ## Storing an entry -/

/-- An action on the storage that succeeds. -/
theorem onArena_of_ok {action : ArenaM K V α} {answer : α} {arena : Arena K V}
    (h : action linked.arena = .ok answer arena) :
    onArena action linked = .ok answer { linked with arena } := by
  obtain ⟨arena, root, size⟩ := linked
  simp only [onArena, h]

/-- Hanging a link into a place puts it there. -/
theorem hang_eq_ok {side : Side} {hole : Link} (hpath : linked.Leads path hole)
    (hside : ∀ frame ∈ path.head?, frame.side = side) (link : Link) :
    hang (Path.owner path) side link linked = .ok () (linked.attach path link) := by
  cases path with
  | nil => rfl
  | cons frame path =>
    cases hside frame rfl
    exact linkDown_eq (live_of_node? hpath.1) frame.side link

/-- Storing an entry adds its slot. -/
theorem slots_repairRed_leaf_perm (cell : Cell K V) (path : Path (Cell K V)) :
    ((Tree.node .red .nil cell .nil).repairRed path).1.slots.Perm
      (cell.slot :: (Tree.nil.under path).slots) :=
  (Tree.toList_repairRed_leaf_perm .red cell path).map Cell.slot

section

variable {arena : Arena K V} {key : K} {value : V}
  (hid : id ∉ (Tree.nil.under path).slots)
  (hnode : ∀ other, arena.node? other =
    if id = other then some (Node.leaf key value (Path.owner path))
    else linked.arena.node? other)

include hid hnode

/-- Storing a node aside leaves the path to an empty place as it is. -/
theorem leads_of_stored (h : linked.Shows (Tree.nil.under path)) :
    Leads { linked with arena } path none := by
  obtain ⟨hpath, -⟩ := shows_under_iff.1 h
  refine Leads.congr hpath rfl fun other hother => (hnode other).trans (if_neg ?_)
  rintro rfl
  exact hid (Tree.mem_slots_under.2 (.inr hother))

/-- A node that was stored aside and then hung into an empty place is a leaf of the tree. -/
theorem depicts_leaf (h : linked.Depicts (Tree.nil.under path)) (size : Nat) :
    Depicts { LinkedTree.attach path (some id) { linked with arena } with size }
      ((Tree.node .red .nil (⟨id, key, value⟩ : Cell K V) .nil).under path) := by
  obtain ⟨-, hpathnodup, -⟩ := Tree.nodup_slots_under.1 h.nodup
  have hpath := leads_of_stored hid hnode h.shows
  have hidpath : id ∉ Path.slots path := fun hmem => hid (Tree.mem_slots_under.2 (.inr hmem))
  have howner : Path.owner path ≠ some id := fun howner => hidpath (Path.mem_slots_of_owner howner)
  -- the path as it was, and below it a node without children
  refine ⟨shows_under_iff.2 ⟨Leads.congr (hpath.attach hpathnodup) rfl fun _ _ => rfl, ?_, trivial,
    trivial⟩, Tree.nodup_slots_under.2 ⟨List.nodup_singleton id, hpathnodup, ?_⟩⟩
  · refine (node?_attach id).trans ?_
    rw [if_neg howner, hnode, if_pos rfl]
    rfl
  · rintro other hother hmem
    cases List.mem_singleton.1 hother
    exact hidpath hmem

end

namespace Reforms

/-- Storing an entry in an empty place. -/
theorem insertAt {side : Side} (hgap : Tree.nil.under path = layout.tree)
    (hside : ∀ frame ∈ path.head?, frame.side = side) (key : K) (value : V) :
    Reforms (LinkedTree.insertAt (Path.owner path) side key value) layout
      (layout.insert path key value).2 (layout.insert path key value).1 := by
  obtain ⟨tree, free, capacity, room⟩ := layout
  cases hgap
  intro linked h
  have halloc := h.storage.alloc_eq key value (Path.owner path)
  rw [Tree.length_slots, h.capacity, h.room] at halloc
  rw [Layout.insert]
  cases hallot : Arena.allot (Tree.nil.under path).size free capacity room with
  | error cause =>
    rw [hallot] at halloc
    exact ⟨linked, bind_of_ok (onArena_of_ok halloc), h⟩
  | ok slot =>
    obtain ⟨id, vacated, grown⟩ := slot
    rw [hallot] at halloc
    obtain ⟨arena, halloc, hholds, hnode, hcapacity, hroom⟩ := halloc
    have hnodup := hholds.nodup
    rw [List.cons_append, List.nodup_cons, List.mem_append, not_or] at hnodup
    obtain ⟨⟨hid, -⟩, -⟩ := hnodup
    -- the node is stored before anything leads to it
    let stored : LinkedTree K V := { linked with arena }
    let hung : LinkedTree K V := stored.attach path (some id)
    let counted : LinkedTree K V := { hung with size := hung.size + 1 }
    have hattach : stored.Relinked hung := Relinked.attach _ _ _
    have hpath : stored.Leads path none := leads_of_stored hid hnode h.shows
    -- the assertion after counting compares with the nodes in storage
    have hcount : countUp hung = .ok () counted := by
      have hlive : hung.size + 1 = hung.arena.live := by
        rw [hattach.size, hattach.live, hholds.live, List.length_cons, Tree.length_slots]
        exact congrArg Nat.succ h.size
      simp only [countUp, if_pos hlive, counted]
    obtain ⟨after, hrepair, hafter, hrelinked⟩ := Redraws.repairRed rfl
      (h.color_getLast?_ne rfl) counted (depicts_leaf hid hnode h.depicts _)
    have hperm := slots_repairRed_leaf_perm (⟨id, key, value⟩ : Cell K V) path
    obtain ⟨n, hbalanced⟩ := h.balanced
    refine ⟨after, ?_, hafter.shows, (hrelinked.holds (hattach.holds hholds)).perm hperm,
      Tree.balanced_repairRed_leaf hbalanced, ?_, ?_, ?_⟩
    · refine (bind_of_ok (onArena_of_ok halloc)).trans ?_
      refine (bind_of_ok (hang_eq_ok hpath hside (some id))).trans ?_
      exact (bind_of_ok hcount).trans (bind_of_ok hrepair)
    · have hsize := hperm.length_eq
      rw [Tree.length_slots, List.length_cons, Tree.length_slots] at hsize
      rw [hsize, hrelinked.size]
      exact congrArg Nat.succ (hattach.size.trans h.size)
    · exact hrelinked.capacity.trans (hattach.capacity.trans hcapacity)
    · exact hrelinked.room.trans (hattach.room.trans hroom)

end Reforms

/-! ## Erasing an entry -/

/-- Take a node out of the tree and repair the tree. -/
def extract (z : SlotId) : LinkM K V (List Event) := do
  let { child, parent, color } ← unlink z
  if color = .black then repairShort child parent else pure []

/-- A node is erased by taking it out, counting it off and vacating its slot. -/
theorem erase_eq (z : SlotId) :
    (erase z : LinkM K V ((K × V) × List Event)) = (do
      let events ← extract z
      countDown
      return (← onArena (Arena.free z), events)) := by
  simp only [erase, extract, bind_assoc]
  congr 1
  funext vacancy
  split <;> rfl

/-- Taking a node out and repairing on links is erasing it from the tree. -/
theorem Redraws.extract {color : Color} {left right : Tree (Cell K V)} {cell : Cell K V} {n : Nat}
    (h : Tree.Balanced ((Tree.node color left cell right).under path) .black n) :
    Redraws (LinkedTree.extract cell.slot) ((Tree.node color left cell right).under path)
      (Tree.erase color left right path).1 (Tree.erase color left right path).2 := by
  obtain ⟨d, k, htree, -, hblack⟩ := Tree.exists_accepts_unlink h
  refine .bind (.unlink color left right cell path) ?_
  rw [Tree.erase]
  generalize Tree.unlink color left right path = place at htree hblack ⊢
  obtain ⟨tree, path, lost⟩ := place
  cases lost with
  | red => exact .pure _ _
  | black => exact .repairShort (hblack rfl) htree.deficient

/-- Erasing an entry removes its slot. -/
theorem slots_erase_perm (color : Color) (left right : Tree (Cell K V)) (cell : Cell K V)
    (path : Path (Cell K V)) :
    ((Tree.node color left cell right).under path).slots.Perm
      (cell.slot :: (Tree.erase color left right path).1.slots) :=
  (Tree.toList_erase_perm color left cell right path).map Cell.slot

theorem Shows.congr (h : linked.Shows tree) (hroot : after.root = linked.root)
    (hsame : ∀ id ∈ tree.slots, after.arena.node? id = linked.arena.node? id) :
    after.Shows tree :=
  ⟨hroot.trans h.1, h.2.congr hsame⟩

/-- The capacity shapes nothing. -/
theorem LaidOut.resized (h : linked.LaidOut layout) (capacity : Nat) :
    (linked.resized capacity).LaidOut { layout with capacity } where
  shows := h.shows.congr rfl fun _ _ => rfl
  storage :=
    { chain := h.storage.chain.congr fun _ _ _ hslot => hslot
      exists_node := h.storage.exists_node
      partition := h.storage.partition
      live := h.storage.live }
  balanced := h.balanced
  size := h.size
  capacity := rfl
  room := h.room

/-- Erasing a node of the tree. -/
theorem Reforms.erase {color : Color} {left right : Tree (Cell K V)} {cell : Cell K V}
    (htree : (Tree.node color left cell right).under path = layout.tree) :
    Reforms (LinkedTree.erase cell.slot) layout (layout.erase color left cell right path).2
      (layout.erase color left cell right path).1 := by
  obtain ⟨tree, free, capacity, room⟩ := layout
  cases htree
  intro linked h
  obtain ⟨n, hbalanced⟩ := h.balanced
  obtain ⟨between, hextract, hbetween, hrelinked⟩ := Redraws.extract hbalanced linked h.depicts
  have hperm := slots_erase_perm color left right cell path
  obtain ⟨-, hnode, -⟩ := shows_under_iff.1 h.shows
  -- the node is still stored, with its entry, when its slot is vacated
  obtain ⟨node, hnode, hentry⟩ := hrelinked.exists_node hnode
  obtain ⟨arena, hfree, hholds, hnodes, hcapacity, hroom⟩ :=
    (hrelinked.holds h.storage).free_eq_ok hperm hnode
  have hsize := hperm.length_eq
  rw [Tree.length_slots, List.length_cons, Tree.length_slots] at hsize
  have hcount : between.size = (Tree.erase color left right path).1.size + 1 :=
    hrelinked.size.trans (h.size.trans hsize)
  let counted : LinkedTree K V :=
    { between with size := (Tree.erase color left right path).1.size }
  have hcountDown : countDown between = .ok () counted := by
    simp only [countDown, hcount, counted]
  have hid : cell.slot ∉ (Tree.erase color left right path).1.slots :=
    (List.nodup_cons.1 (hperm.nodup_iff.1 h.depicts.nodup)).1
  refine ⟨{ counted with arena }, ?_, ?_, hholds, Tree.balanced_erase hbalanced, rfl, ?_, ?_⟩
  · rw [erase_eq]
    have hvacate : onArena (Arena.free cell.slot) counted = .ok node.entry { counted with arena } :=
      onArena_of_ok hfree
    rw [hentry] at hvacate
    exact (bind_of_ok hextract).trans ((bind_of_ok hcountDown).trans (bind_of_ok hvacate))
  · refine hbetween.shows.congr rfl fun other hother => ?_
    exact (hnodes other).trans (if_neg fun heq : cell.slot = other => hid (heq ▸ hother))
  · exact hcapacity.trans (hrelinked.capacity.trans h.capacity)
  · exact hroom.trans (hrelinked.room.trans h.room)

/-! ## Replacing a value -/

/-- Another entry with the same slot leaves the slots as they are. -/
theorem slots_replace {frame : Frame (Cell K V)} {cell : Cell K V}
    (hslot : cell.slot = frame.entry.slot) (inner : Tree (Cell K V)) (path : Path (Cell K V)) :
    (inner.under ({ frame with entry := cell } :: path)).slots =
      (inner.under (frame :: path)).slots := by
  obtain ⟨side, color, entry, sibling⟩ := frame
  have hslot : cell.slot = entry.slot := hslot
  cases side <;>
    simp [Tree.slots, Tree.toList_under, Frame.close, Tree.join, Tree.toList, hslot]

/-- Changing the value of a node changes its entry in the tree. -/
theorem Reforms.modifyValue {frame : Frame (Cell K V)} {inner : Tree (Cell K V)}
    (htree : inner.under (frame :: path) = layout.tree) (change : V → V) :
    Reforms (modifyNode frame.entry.slot fun node => node.withValue (change node.value)) layout
      { layout with
        tree := inner.under
          ({ frame with entry := frame.entry.withValue (change frame.entry.value) } :: path) }
      () := by
  obtain ⟨tree, free, capacity, room⟩ := layout
  cases htree
  intro linked h
  have hshows : linked.Shows (inner.under (frame :: path)) := h.shows
  have hnodup : ((frame.close inner).under path).slots.Nodup := h.depicts.nodup
  obtain ⟨⟨hnode, hsibling, hpath⟩, hinner⟩ := shows_under_iff.1 hshows
  obtain ⟨hclose, -, hdisjoint⟩ := Tree.nodup_slots_under.1 hnodup
  obtain ⟨hidsibling, hidinner, -⟩ := Tree.nodup_slots_close.1 hclose
  have hidpath : frame.entry.slot ∉ Path.slots path :=
    hdisjoint (Tree.mem_slots_close.2 (.inl rfl))
  have hslot : (frame.entry.withValue (change frame.entry.value)).slot = frame.entry.slot := rfl
  have hslots := slots_replace hslot inner path
  let revalue : Node K V → Node K V := fun node => node.withValue (change node.value)
  have hwrite : linked.alter (some frame.entry.slot) revalue =
      linked.write frame.entry.slot (revalue (frame.node inner.link (Path.owner path))) := by
    simp only [LinkedTree.alter, hnode]
  obtain ⟨n, hbalanced⟩ := h.balanced
  -- neither slots nor colours depend on values
  refine ⟨_, modifyNode_eq hnode, ?_, ?_, ⟨n, hbalanced.replace _⟩, ?_, ?_, ?_⟩
  · refine shows_under_iff.2 ⟨⟨?_, hsibling.alter (some_ne_of_notMem hidsibling),
      hpath.alter (some_ne_of_notMem hidpath)⟩, hinner.alter (some_ne_of_notMem hidinner)⟩
    have hread : (linked.alter (some frame.entry.slot) revalue).arena.node? frame.entry.slot =
        some (revalue (frame.node inner.link (Path.owner path))) := by
      rw [node?_alter, if_pos rfl, hnode]
      rfl
    refine hread.trans (congrArg some ?_)
    obtain ⟨side, color, entry, sibling⟩ := frame
    cases side <;> rfl
  · rw [hwrite, hslots]
    exact h.storage.write hnode _
  · rw [hwrite, ← Tree.length_slots, hslots, Tree.length_slots]
    exact h.size
  · rw [hwrite]
    exact h.capacity
  · rw [hwrite]
    exact h.room

/-! ## Reading -/

/-- The tree that is depicted can be read off. -/
theorem Depicts.toTree_eq_ok (h : linked.Depicts tree) : linked.toTree = .ok tree.entries := by
  rw [toTree, h.shows.1]
  exact Arena.treeWithin_eq h.shows.2 (Nat.le_succ_of_le h.size_le)

namespace LaidOut

variable (h : linked.LaidOut layout)

include h

/-- The node of a frame around a tree. -/
theorem node_eq_ok {frame : Frame (Cell K V)} {inner : Tree (Cell K V)}
    (htree : inner.under (frame :: path) = layout.tree) :
    node frame.entry.slot linked = .ok (frame.node inner.link (Path.owner path)) linked := by
  have hshows := h.shows
  rw [← htree] at hshows
  exact node_of_node? (shows_under_iff.1 hshows).1.1

/-- The outermost node is the lowest one of the spine on its side. -/
theorem outermost?_eq_ok (side : Side) :
    linked.outermost? side =
      .ok ((layout.tree.spine side []).head?.map fun frame => frame.entry.slot) := by
  rw [outermost?, h.shows.1]
  cases hspine : layout.tree.spine side [] with
  | nil =>
    rw [Tree.eq_nil_of_spine_eq_nil hspine]
    rfl
  | cons frame rest =>
    obtain ⟨id, hlink⟩ := Tree.exists_link_of_spine hspine
    have hwalk : linked.arena.outermostFrom side id = .ok frame.entry.slot :=
      Arena.outermostWithin_eq h.shows.2 hlink hspine (Nat.le_of_lt h.size_lt_budget)
    simp only [hlink, hwalk]
    rfl

/-- The entry of the outermost node. -/
theorem outermostEntry?_eq_ok (side : Side) :
    linked.outermostEntry? side =
      .ok ((layout.tree.spine side []).head?.map fun frame => frame.entry.entry) := by
  unfold outermostEntry?
  rw [h.outermost?_eq_ok side]
  cases hspine : layout.tree.spine side [] with
  | nil => rfl
  | cons frame rest =>
    have htree : Tree.nil.under (frame :: rest) = layout.tree := by
      rw [← hspine, Tree.nil_under_spine, Tree.under_nil]
    have hshows := h.shows
    rw [← htree] at hshows
    have hget := Arena.get_of_node? (shows_under_iff.1 hshows).1.1
    simp only [bind, Except.bind, List.head?_cons, Option.map_some, hget, Frame.entry_node]
    rfl

theorem toTree_eq_ok : linked.toTree = .ok layout.tree.entries :=
  h.depicts.toTree_eq_ok

theorem height_eq_ok : linked.height = .ok layout.tree.height := by
  rw [height, h.toTree_eq_ok]
  exact congrArg Except.ok (Tree.height_map ..)

end LaidOut

namespace Reforms

/-- A question leaves the layout as it is. -/
theorem inspect {question : LinkedTree K V → Except Fault α} {answer : α}
    (h : ∀ linked : LinkedTree K V, linked.LaidOut layout → question linked = .ok answer) :
    Reforms (LinkedTree.inspect question) layout layout answer := by
  intro linked hlaid
  refine ⟨linked, ?_, hlaid⟩
  simp only [LinkedTree.inspect, h linked hlaid]

theorem node {frame : Frame (Cell K V)} {inner : Tree (Cell K V)}
    (htree : inner.under (frame :: path) = layout.tree) :
    Reforms (LinkedTree.node frame.entry.slot) layout layout
      (frame.node inner.link (Path.owner path)) :=
  fun linked h => ⟨linked, h.node_eq_ok htree, h⟩

/-- Reading the root of the tree in a place. -/
theorem node_root {color : Color} {left right : Tree (Cell K V)} {cell : Cell K V}
    (htree : (Tree.node color left cell right).under path = layout.tree) :
    Reforms (LinkedTree.node cell.slot) layout layout
      { key := cell.key, value := cell.value, color, parent := Path.owner path,
        left := left.link, right := right.link } := by
  have hframe : left.under (⟨.left, color, cell, right⟩ :: path) = layout.tree := htree
  exact node hframe

theorem getRoot (layout : Layout K V) :
    Reforms LinkedTree.getRoot layout layout layout.tree.link :=
  fun linked h => ⟨linked, congrArg (EStateM.Result.ok · linked) h.shows.1, h⟩

/-- Replacing the value of a node gives the old one. -/
theorem replaceValue {frame : Frame (Cell K V)} {inner : Tree (Cell K V)}
    (htree : inner.under (frame :: path) = layout.tree) (value : V) :
    Reforms (LinkedTree.replaceValue frame.entry.slot value) layout
      { layout with
        tree := inner.under ({ frame with entry := frame.entry.withValue value } :: path) }
      frame.entry.value := by
  intro linked h
  obtain ⟨after, hmodify, hafter⟩ := modifyValue htree (fun _ => value) linked h
  refine ⟨after, ?_, hafter⟩
  refine (bind_of_ok (h.node_eq_ok htree)).trans ((bind_of_ok hmodify).trans ?_)
  exact congrArg (EStateM.Result.ok · after) (frame.value_node inner.link (Path.owner path))

end Reforms

end LinkedTree

end RedBlack
