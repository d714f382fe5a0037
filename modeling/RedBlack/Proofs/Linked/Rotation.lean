import RedBlack.Linked.Rotation
import RedBlack.Proofs.Linked.Representation

/-!
# Rotations of Linked Trees

Relinking a place and rotating, as operations on the tree that a linked tree shows. Both write
links only: the entries, the vacant slots and the counters stay as they are
(`LinkedTree.Relinked`). The colours stay too, and the links of all nodes but those at a few
named links (`LinkedTree.RewiredAt`).

Main results: `relink_eq` puts a link into a place, and `rotate_eq_ok` rotates at any node of
any shown tree.
-/

namespace RedBlack

variable {K V : Type}

/-! ## What relinking keeps -/

/-- The content of a slot with the links and the colour of a node forgotten. -/
def Slot.bare : Slot K V → Slot K V
  | .occupied node => .occupied (Node.leaf node.key node.value none)
  | .vacant next => .vacant next

/-- The arena with the links and the colours of its nodes forgotten. -/
def Arena.bare (arena : Arena K V) : Arena K V :=
  { arena with slots := arena.slots.map Slot.bare }

/-- The bare content of a slot that holds a node depends only on the entry of the node. -/
theorem Slot.bare_occupied_congr {node other : Node K V} (h : node.entry = other.entry) :
    (Slot.occupied node).bare = (Slot.occupied other).bare := by
  obtain ⟨hkey, hvalue⟩ := Prod.mk.inj h
  rw [Slot.bare, Slot.bare, hkey, hvalue]

/-- Writing a node with the same entry keeps the bare arena. -/
theorem Arena.bare_write {arena : Arena K V} {id : SlotId} {node new : Node K V}
    (h : arena.node? id = some node) (hentry : new.entry = node.entry) :
    (arena.write id new).bare = arena.bare := by
  have hslot := Arena.slots_eq_of_node? h
  have hslots : ((arena.write id new).slots.map Slot.bare) = arena.slots.map Slot.bare := by
    apply Array.ext_getElem?
    intro i
    -- the written slot keeps its entry, and all other slots are as before
    by_cases hi : id = i
    · subst hi
      rw [Array.getElem?_map, Array.getElem?_map, hslot, Arena.write,
        Array.getElem?_setIfInBounds_self_of_lt (Arena.lt_size_of_node? h)]
      exact congrArg some (Slot.bare_occupied_congr hentry)
    · rw [Array.getElem?_map, Array.getElem?_map, Arena.write, Array.getElem?_setIfInBounds_ne hi]
  unfold Arena.bare
  rw [hslots]
  rfl

namespace LinkedTree

open RedBlack.Tree (Frame Path join)

/-- Nothing but links and colours has changed. -/
structure Relinked (linked after : LinkedTree K V) : Prop where
  /-- The number of entries is the same. -/
  size : after.size = linked.size
  /-- The arenas differ in links and colours only. -/
  bare : after.arena.bare = linked.arena.bare

variable {linked after last : LinkedTree K V} {tree : Tree (Cell K V)}
  {frame : Frame (Cell K V)} {path : Path (Cell K V)} {link hole : Link}
  {change : Node K V → Node K V} {id : SlotId}

namespace Relinked

theorem refl (linked : LinkedTree K V) : linked.Relinked linked :=
  ⟨rfl, rfl⟩

theorem trans (h : linked.Relinked after) (h' : after.Relinked last) : linked.Relinked last :=
  ⟨h'.size.trans h.size, h'.bare.trans h.bare⟩

/-- A live node is still live, with the same entry. -/
theorem exists_node {node : Node K V} (h : linked.Relinked after)
    (hnode : linked.arena.node? id = some node) :
    ∃ new, after.arena.node? id = some new ∧ new.entry = node.entry := by
  have hslots : after.arena.slots.map Slot.bare = linked.arena.slots.map Slot.bare :=
    congrArg Arena.slots h.bare
  have hslot := congrArg (·[id]?) hslots
  -- the bare slot is occupied, so the slot is
  simp only [Array.getElem?_map, Arena.slots_eq_of_node? hnode, Option.map_some,
    Option.map_eq_some_iff] at hslot
  obtain ⟨slot, hslot, hbare⟩ := hslot
  cases slot with
  | vacant next => cases hbare
  | occupied new =>
    refine ⟨new, by rw [Arena.node?, hslot], ?_⟩
    injection hbare with hleaf
    injection hleaf with hkey hvalue
    exact Prod.ext hkey hvalue

/-- A change that keeps the entry of a node relinks. -/
theorem alter (linked : LinkedTree K V) (link : Link)
    (h : ∀ node, (change node).entry = node.entry) :
    linked.Relinked (linked.alter link change) := by
  cases link with
  | none => exact refl linked
  | some id =>
    rw [LinkedTree.alter]
    split
    · exact refl linked
    · next node hnode => exact ⟨rfl, Arena.bare_write hnode (h node)⟩

/-- Putting a link into a place relinks. -/
theorem attach (linked : LinkedTree K V) (path : Path (Cell K V)) (link : Link) :
    linked.Relinked (linked.attach path link) := by
  cases path with
  | nil => exact ⟨rfl, rfl⟩
  | cons frame path =>
    rw [LinkedTree.attach]
    exact alter linked _ fun node => node.entry_withChild frame.side link

end Relinked

/-- Nothing but links has changed, and links only in the slots at the ends of `ends`. -/
structure RewiredAt (linked after : LinkedTree K V) (ends : List Link) : Prop extends
    Relinked linked after where
  /-- Every node keeps its colour. -/
  color : ∀ id, (after.arena.node? id).map Node.color = (linked.arena.node? id).map Node.color
  /-- All other slots are as before. -/
  elsewhere : ∀ id, some id ∉ ends → after.arena.slots[id]? = linked.arena.slots[id]?

namespace RewiredAt

variable {ends : List Link}

theorem trans (h : linked.RewiredAt after ends) (h' : after.RewiredAt last ends) :
    linked.RewiredAt last ends where
  toRelinked := h.toRelinked.trans h'.toRelinked
  color id := (h'.color id).trans (h.color id)
  elsewhere id hid := (h'.elsewhere id hid).trans (h.elsewhere id hid)

/-- A change that keeps the entry and the colour of a node rewires it. -/
theorem alter (linked : LinkedTree K V) (hlink : link ∈ ends)
    (h : ∀ node, (change node).entry = node.entry ∧ (change node).color = node.color) :
    linked.RewiredAt (linked.alter link change) ends where
  toRelinked := Relinked.alter linked link fun node => (h node).1
  color id := by
    have hcolor : Node.color ∘ change = Node.color := funext fun node => (h node).2
    rw [node?_alter]
    split
    · rw [Option.map_map, hcolor]
    · rfl
  elsewhere id hid := slots_alter fun heq => hid (heq ▸ hlink)

theorem withChild (linked : LinkedTree K V) (hlink : link ∈ ends) (side : Side) (new : Link) :
    linked.RewiredAt (linked.alter link (Node.withChild · side new)) ends :=
  alter linked hlink fun node => ⟨node.entry_withChild side new, node.color_withChild side new⟩

theorem withParent (linked : LinkedTree K V) (hlink : link ∈ ends) (new : Link) :
    linked.RewiredAt (linked.alter link (Node.withParent · new)) ends :=
  alter linked hlink fun node => ⟨node.entry_withParent new, node.color_withParent new⟩

/-- Putting a link into a place rewires the owner of the place. -/
theorem attach (linked : LinkedTree K V) (howner : Path.owner path ∈ ends) (link : Link) :
    linked.RewiredAt (linked.attach path link) ends := by
  cases path with
  | nil => exact { toRelinked := ⟨rfl, rfl⟩, color := fun _ => rfl, elsewhere := fun _ _ => rfl }
  | cons frame path =>
    rw [LinkedTree.attach]
    exact withChild linked howner frame.side link

/-- A tree that lies in none of the rewired slots stays stored. -/
theorem stores {parent : Link} (h : linked.RewiredAt after ends)
    (hstored : linked.arena.Stores parent tree) (hends : ∀ id ∈ tree.slots, some id ∉ ends) :
    after.arena.Stores parent tree := by
  refine hstored.congr fun id hid => ?_
  unfold Arena.node?
  rw [h.elsewhere id (hends id hid)]

end RewiredAt

/-- A link leads to a live node, or nowhere. -/
def Live (linked : LinkedTree K V) (link : Link) : Prop :=
  ∀ id, link = some id → ∃ node, linked.arena.node? id = some node

theorem live_link {parent : Link} (h : linked.arena.Stores parent tree) :
    linked.Live tree.link :=
  fun _ hid => h.exists_node hid

theorem live_of_node? {node : Node K V} (h : linked.arena.node? id = some node) :
    linked.Live (some id) := by
  rintro _ ⟨⟩
  exact ⟨node, h⟩

/-- A live node stays live when a node is changed. -/
theorem Live.alter {other : Link} (h : linked.Live link) :
    (linked.alter other change).Live link := by
  -- a change never vacates a slot
  intro id hid
  obtain ⟨node, hnode⟩ := h id hid
  rw [node?_alter, hnode]
  split
  · exact ⟨_, rfl⟩
  · exact ⟨_, rfl⟩

/-- A live node stays live when a link is put into a place. -/
theorem Live.attach {other : Link} (h : linked.Live link) :
    (linked.attach path other).Live link := by
  intro id hid
  obtain ⟨node, hnode⟩ := h id hid
  rw [node?_attach, hnode]
  split
  · exact ⟨_, rfl⟩
  · exact ⟨_, rfl⟩

/-! ## Single links -/

/-- Replacing a child link of a live node is an alteration. -/
theorem linkDown_eq (h : linked.Live (some id)) (side : Side) (link : Link) :
    linkDown id side link linked =
      .ok () (linked.alter (some id) (Node.withChild · side link)) := by
  obtain ⟨node, hnode⟩ := h id rfl
  exact modifyNode_eq hnode

/-- Replacing the parent link of a live node, or of no node, is an alteration. -/
theorem linkUp_eq (h : linked.Live link) (parent : Link) :
    linkUp link parent linked = .ok () (linked.alter link (Node.withParent · parent)) := by
  cases link with
  | none => rfl
  | some id =>
    obtain ⟨node, hnode⟩ := h id rfl
    exact modifyNode_eq hnode

/-- A place hangs from the side of its frame, unless the sibling looks the same. -/
theorem childSide_eq (h : linked.Leads (frame :: path) hole) (hne : frame.sibling.link ≠ hole) :
    childSide hole frame.entry.slot linked = .ok frame.side linked := by
  obtain ⟨hnode, -⟩ := h
  rw [childSide, bind_of_ok (node_of_node? hnode)]
  obtain ⟨side, color, cell, sibling⟩ := frame
  -- the side is found by comparing links, the left one first
  cases side with
  | left => simp [Frame.node]; rfl
  | right => simp [Frame.node, hne]; rfl

/-- Relinking a place puts the new link into it and gives the node at its end the owner of
the place as its parent. -/
theorem relink_eq {new : Link} (hpath : linked.Leads path hole)
    (hne : ∀ frame ∈ path.head?, frame.sibling.link ≠ hole) (hnew : linked.Live new) :
    relink (Path.owner path) hole new linked =
      .ok () ((linked.attach path new).alter new (Node.withParent · (Path.owner path))) := by
  -- at the root, the new link replaces the root itself
  cases path with
  | nil =>
    have hlive : (linked.attach [] new).Live new := hnew.attach
    exact linkUp_eq hlive none
  | cons frame path =>
    have hside := childSide_eq hpath (hne frame rfl)
    change (childSide hole frame.entry.slot >>= fun side =>
      linkDown frame.entry.slot side new >>= fun _ => linkUp new (some frame.entry.slot)) linked = _
    have hlive : (linked.attach (frame :: path) new).Live new := hnew.attach
    rw [bind_of_ok hside, bind_of_ok (linkDown_eq (live_of_node? hpath.1) frame.side new)]
    exact linkUp_eq hlive _

/-- A sibling does not share the link of a node outside of the path. -/
theorem sibling_link_ne (hid : id ∉ Path.slots path) :
    ∀ frame ∈ path.head?, frame.sibling.link ≠ some id := by
  intro frame hframe hlink
  cases path with
  | nil => cases hframe
  | cons first path =>
    cases hframe
    exact hid (by simp [Path.slots, Tree.mem_slots_of_link hlink])

/-- The root of a tree lies outside of any other tree. -/
theorem link_ne_of_disjoint {tree : Tree (Cell K V)} {slots : List SlotId}
    (h : tree.slots.Disjoint slots) : ∀ id ∈ slots, tree.link ≠ some id :=
  fun _ hid hlink => h (Tree.mem_slots_of_link hlink) hid

/-- The owner of a place lies outside of the tree in it. -/
theorem owner_ne_of_disjoint {slots : List SlotId} (h : slots.Disjoint (Path.slots path)) :
    ∀ id ∈ slots, Path.owner path ≠ some id :=
  fun _ hid howner => h hid (Path.mem_slots_of_owner howner)

/-- A single node lies outside of a tree that does not hold it. -/
theorem some_ne_of_notMem {slots : List SlotId} (h : id ∉ slots) :
    ∀ other ∈ slots, some id ≠ some other := by
  rintro other hother ⟨⟩
  exact h hother

/-! ## Rotation -/

/-- The linked tree after a rotation of `x` towards one side: `y` is in the place of `x` at
the end of the path, `x` hangs below `y`, and `inner` below `x`. -/
def rotated (x y : SlotId) (inner : Link) (side : Side) (path : Path (Cell K V))
    (linked : LinkedTree K V) : LinkedTree K V :=
  let lowered := linked.alter (some x) (Node.withChild · side.opposite inner)
  let adopted := lowered.alter inner (Node.withParent · (some x))
  let lifted := (adopted.attach path (some y)).alter (some y) (Node.withParent · (Path.owner path))
  (lifted.alter (some y) (Node.withChild · side (some x))).alter (some x)
    (Node.withParent · (some y))

/-- A rotation changes only the links of the two nodes, of the root of the inner subtree and of the
owner of the place. -/
theorem rewiredAt_rotated (x y : SlotId) (inner : Link) (side : Side) (path : Path (Cell K V))
    (linked : LinkedTree K V) :
    linked.RewiredAt (linked.rotated x y inner side path)
      [some x, some y, inner, Path.owner path] := by
  rw [rotated]
  -- the six writes of `rotated`, in their order
  refine (RewiredAt.withChild _ ?_ _ _).trans <| (RewiredAt.withParent _ ?_ _).trans <|
    (RewiredAt.attach _ ?_ _).trans <| (RewiredAt.withParent _ ?_ _).trans <|
      (RewiredAt.withChild _ ?_ _ _).trans (RewiredAt.withParent _ ?_ _)
  all_goals simp

/-- A rotation leaves every subtree alone that shares no slot with the nodes it writes. -/
theorem stores_rotated {side : Side} {x y : SlotId} {inner other : Tree (Cell K V)} {parent : Link}
    (h : linked.arena.Stores parent other) (hx : x ∉ other.slots) (hy : y ∉ other.slots)
    (hinner : inner.slots.Disjoint other.slots) (hpath : other.slots.Disjoint (Path.slots path)) :
    (linked.rotated x y inner.link side path).arena.Stores parent other := by
  refine (rewiredAt_rotated ..).stores h fun id hid hmem => ?_
  simp only [List.mem_cons, List.not_mem_nil, or_false, Option.some.injEq] at hmem
  rcases hmem with rfl | rfl | hlink | howner
  · exact hx hid
  · exact hy hid
  · exact link_ne_of_disjoint hinner id hid hlink.symm
  · exact owner_ne_of_disjoint hpath id hid howner.symm

/-- Two nested frames, their siblings `near` and `far`, the tree inside and the path to them share
no slot. -/
structure Apart (upper lower : Frame (Cell K V)) (inner : Tree (Cell K V))
    (path : Path (Cell K V)) : Prop where
  ne : upper.entry.slot ≠ lower.entry.slot
  upper_path : upper.entry.slot ∉ Path.slots path
  upper_near : upper.entry.slot ∉ upper.sibling.slots
  upper_far : upper.entry.slot ∉ lower.sibling.slots
  upper_inner : upper.entry.slot ∉ inner.slots
  lower_path : lower.entry.slot ∉ Path.slots path
  lower_near : lower.entry.slot ∉ upper.sibling.slots
  lower_far : lower.entry.slot ∉ lower.sibling.slots
  lower_inner : lower.entry.slot ∉ inner.slots
  near_path : upper.sibling.slots.Disjoint (Path.slots path)
  far_path : lower.sibling.slots.Disjoint (Path.slots path)
  inner_path : inner.slots.Disjoint (Path.slots path)
  inner_near : inner.slots.Disjoint upper.sibling.slots
  inner_far : inner.slots.Disjoint lower.sibling.slots
  nodup_inner : inner.slots.Nodup
  nodup_path : (Path.slots path).Nodup

section

variable {upper lower : Frame (Cell K V)} {inner : Tree (Cell K V)}

/-- In a tree in which no slot occurs twice, the parts of a rotation share none. -/
theorem apart_of_nodup (h : ((upper.close (lower.close inner)).under path).slots.Nodup) :
    Apart upper lower inner path := by
  obtain ⟨hupper, hpath, hdisjoint⟩ := Tree.nodup_slots_under.1 h
  obtain ⟨hxnear, hxlower, -, hlower, hnearlower⟩ := Tree.nodup_slots_close.1 hupper
  obtain ⟨hyfar, hyinner, -, hinner, hfarinner⟩ := Tree.nodup_slots_close.1 hlower
  simp only [Tree.mem_slots_close, not_or] at hxlower
  simp only [Tree.mem_slots_close, List.Disjoint] at hdisjoint hnearlower
  exact
    { ne := hxlower.1
      upper_path := hdisjoint (.inl rfl)
      upper_near := hxnear
      upper_far := hxlower.2.1
      upper_inner := hxlower.2.2
      lower_path := hdisjoint (.inr (.inr (.inl rfl)))
      lower_near := fun hmem => hnearlower hmem (.inl rfl)
      lower_far := hyfar
      lower_inner := hyinner
      near_path := fun _ hid => hdisjoint (.inr (.inl hid))
      far_path := fun _ hid => hdisjoint (.inr (.inr (.inr (.inl hid))))
      inner_path := fun _ hid => hdisjoint (.inr (.inr (.inr (.inr hid))))
      inner_near := fun _ hid hmem => hnearlower hmem (.inr (.inr hid))
      inner_far := fun _ hid hmem => hfarinner hmem hid
      nodup_inner := hinner
      nodup_path := hpath }

variable (h : linked.Shows ((upper.close (lower.close inner)).under path))
  (hnodup : ((upper.close (lower.close inner)).under path).slots.Nodup)
  (hside : upper.side = lower.side.opposite)

include h hnodup hside

/-- Rotating the upper of two frames, in which the lower one hangs on the far side, never
lacks a node to read or to write. -/
theorem rotate_eq_ok_rotated :
    rotate upper.entry.slot lower.side linked =
      .ok () (linked.rotated upper.entry.slot lower.entry.slot inner.link lower.side path) := by
  have hapart := apart_of_nodup hnodup
  obtain ⟨hpath, hclose⟩ := shows_under_iff.1 h
  obtain ⟨hx, hclose, -⟩ := Arena.Stores.close_iff.1 hclose
  obtain ⟨hy, hinner, -⟩ := Arena.Stores.close_iff.1 hclose
  rw [Frame.link_close] at hpath hx
  have hlinkx : inner.link ≠ some upper.entry.slot :=
    fun hlink => hapart.upper_inner (Tree.mem_slots_of_link hlink)
  rw [rotate, bind_of_ok (node_of_node? hx), ← hside, Frame.child_node]
  simp only
  rw [bind_of_ok (node_of_node? hy), Frame.child_node,
    bind_of_ok (linkDown_eq (live_of_node? hx) upper.side inner.link),
    bind_of_ok (linkUp_eq (live_link hinner).alter _)]
  -- the parent of the upper node is read after its child has been replaced
  have hread :
      ((linked.alter (some upper.entry.slot) (Node.withChild · upper.side inner.link)).alter
        inner.link (Node.withParent · (some upper.entry.slot))).arena.node? upper.entry.slot =
          some (upper.node inner.link (Path.owner path)) := by
    rw [node?_alter, if_neg hlinkx, node?_alter, if_pos rfl, hx]
    exact congrArg some (Frame.withChild_node ..)
  have hupperpath := some_ne_of_notMem hapart.upper_path
  have hinnerpath := link_ne_of_disjoint hapart.inner_path
  rw [bind_of_ok (node_of_node? hread), Frame.parent_node,
    bind_of_ok (relink_eq ((hpath.alter hupperpath).alter hinnerpath)
      (sibling_link_ne hapart.upper_path) (live_of_node? hy).alter.alter),
    bind_of_ok (linkDown_eq (live_of_node? hy).alter.alter.attach.alter _ _), rotated, ← hside]
  exact linkUp_eq (live_of_node? hx).alter.alter.attach.alter.alter _

/-- After the rotation the lower frame is closed around the upper one. -/
theorem shows_rotated :
    (linked.rotated upper.entry.slot lower.entry.slot inner.link lower.side path).Shows
      ((lower.close (upper.close inner)).under path) := by
  have hapart := apart_of_nodup hnodup
  obtain ⟨hpath, hclose⟩ := shows_under_iff.1 h
  obtain ⟨hx, hclose, hnear⟩ := Arena.Stores.close_iff.1 hclose
  obtain ⟨hy, hinner, hfar⟩ := Arena.Stores.close_iff.1 hclose
  rw [Frame.link_close] at hpath hx
  -- neither of the two nodes is the root of the inner subtree or the owner of the place
  have hlinkx : inner.link ≠ some upper.entry.slot :=
    fun hlink => hapart.upper_inner (Tree.mem_slots_of_link hlink)
  have hlinky : inner.link ≠ some lower.entry.slot :=
    fun hlink => hapart.lower_inner (Tree.mem_slots_of_link hlink)
  have hownerx : Path.owner path ≠ some upper.entry.slot :=
    fun howner => hapart.upper_path (Path.mem_slots_of_owner howner)
  have hownery : Path.owner path ≠ some lower.entry.slot :=
    fun howner => hapart.lower_path (Path.mem_slots_of_owner howner)
  have hupperpath := some_ne_of_notMem hapart.upper_path
  have hinnerpath := link_ne_of_disjoint hapart.inner_path
  have hlowerpath := some_ne_of_notMem hapart.lower_path
  have hupperinner := some_ne_of_notMem hapart.upper_inner
  have hlowerinner := some_ne_of_notMem hapart.lower_inner
  rw [shows_under_iff, Arena.Stores.close_iff, Arena.Stores.close_iff, Frame.link_close,
    Frame.link_close]
  refine ⟨?_, ?_, ⟨?_, ?_, ?_⟩, ?_⟩
  · rw [rotated]
    exact (((((hpath.alter hupperpath).alter hinnerpath).attach hapart.nodup_path).alter
      hlowerpath).alter hlowerpath).alter hupperpath
  · rw [rotated]
    simp [hapart.ne, hownery, hlinky, hy]
  · rw [rotated, ← hside]
    simp [Ne.symm hapart.ne, hownerx, hlinkx, hx]
  · rw [rotated]
    -- the inner subtree is the only one whose parent changes
    exact (((stores_attach ((hinner.alter hupperinner).adopt hapart.nodup_inner)
      (owner_ne_of_disjoint hapart.inner_path)).alter hlowerinner).alter hlowerinner).alter
        hupperinner
  · exact stores_rotated hnear hapart.upper_near hapart.lower_near hapart.inner_near
      hapart.near_path
  · exact stores_rotated hfar hapart.upper_far hapart.lower_far hapart.inner_far hapart.far_path

end

/-- A rotation lifts the far child of a node into its place, and hangs the inner subtree of
that child below the node. -/
theorem rotate_eq_ok {side : Side} {c d : Color} {x y : Cell K V}
    {near inner far : Tree (Cell K V)}
    (h : linked.Shows ((join side c near x (join side d inner y far)).under path))
    (hnodup : ((join side c near x (join side d inner y far)).under path).slots.Nodup) :
    ∃ after, rotate x.slot side linked = .ok () after ∧
      after.Shows ((join side d (join side c near x inner) y far).under path) ∧
        linked.Relinked after := by
  -- `x` is seen from its far side, where `y` and later the inner subtree hang
  rw [← Tree.join_opposite side c] at h hnodup ⊢
  let upper : Frame (Cell K V) := ⟨side.opposite, c, x, near⟩
  let lower : Frame (Cell K V) := ⟨side, d, y, far⟩
  have hshows : linked.Shows ((upper.close (lower.close inner)).under path) := h
  exact ⟨_, rotate_eq_ok_rotated hshows hnodup rfl, shows_rotated hshows hnodup rfl,
    (rewiredAt_rotated ..).toRelinked⟩

end LinkedTree

end RedBlack
