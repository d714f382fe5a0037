import RedBlack.Proofs.Linked.Layout

/-!
# Layouts Determine Linked Trees

A layout says everything about a linked tree: which slots hold which nodes with which links, in
what order the vacant slots are linked, the root and all counts. Two linked trees with the same
layout are the same (`LinkedTree.LaidOut.unique`), so an action that leaves the layout as it is
leaves every slot and every link as it is.

The tree alone says everything about its own slots only. Linked trees that show the same tree are
the same if they agree elsewhere, and in what a relinking keeps (`LinkedTree.Shows.unique`).
-/

namespace RedBlack

variable {K V : Type}

namespace Arena

variable {arena other : Arena K V} {parent link link' : Link} {tree : Tree (Cell K V)}
  {occupied vacated : List SlotId}

/-- A stored tree determines the slots of its nodes. -/
theorem Stores.slots_eq (h : arena.Stores parent tree) (h' : other.Stores parent tree) :
    ∀ id ∈ tree.slots, arena.slots[id]? = other.slots[id]? := by
  induction tree generalizing parent with
  | nil =>
    intro id hid
    cases hid
  | node color left cell right ihl ihr =>
    obtain ⟨hnode, hleft, hright⟩ := h
    obtain ⟨hnode', hleft', hright'⟩ := h'
    intro id hid
    simp only [Tree.slots, Tree.toList, List.map_append, List.map_cons, List.mem_append,
      List.mem_cons] at hid
    rcases hid with hid | rfl | hid
    · exact ihl hleft hleft' id hid
    · rw [slots_eq_of_node? hnode, slots_eq_of_node? hnode']
    · exact ihr hright hright' id hid

/-- The free list determines where it starts and the slots that it runs through. -/
theorem Chain.unique (h : arena.Chain link vacated) (h' : other.Chain link' vacated) :
    link = link' ∧ ∀ id ∈ vacated, arena.slots[id]? = other.slots[id]? := by
  induction vacated generalizing link link' with
  | nil => exact ⟨Eq.trans h (Eq.symm h'), List.forall_mem_nil _⟩
  | cons first rest ih =>
    obtain ⟨rfl, next, hslot, hrest⟩ := h
    obtain ⟨rfl, next', hslot', hrest'⟩ := h'
    obtain ⟨rfl, hsame⟩ := ih hrest hrest'
    exact ⟨rfl, List.forall_mem_cons.2 ⟨hslot.trans hslot'.symm, hsame⟩⟩

/-- Arenas that agree on the occupied and on the vacant slots agree. -/
theorem Holds.slots_eq (h : arena.Holds occupied vacated) (h' : other.Holds occupied vacated)
    (hoccupied : ∀ id ∈ occupied, arena.slots[id]? = other.slots[id]?) :
    arena.slots = other.slots := by
  have hsize : arena.slots.size = other.slots.size := h.size_eq.trans h'.size_eq.symm
  obtain ⟨-, hvacated⟩ := h.chain.unique h'.chain
  apply Array.ext_getElem?
  intro id
  by_cases hid : id < arena.slots.size
  · -- every slot is listed, as an occupied or as a vacant one
    have hlisted : id ∈ occupied ++ vacated := h.partition.mem_iff.2 (List.mem_range.2 hid)
    rcases List.mem_append.1 hlisted with hid | hid
    · exact hoccupied id hid
    · exact hvacated id hid
  · rw [Array.getElem?_eq_none (by omega), Array.getElem?_eq_none (by omega)]

end Arena

namespace LinkedTree

variable {linked other : LinkedTree K V} {tree : Tree (Cell K V)} {layout : Layout K V}

/-- Two linked trees are the same if they have the same root, the same slots and the same counts. -/
theorem eq_of_slots (hroot : linked.root = other.root) (hsize : linked.size = other.size)
    (hslots : linked.arena.slots = other.arena.slots)
    (hlast : linked.arena.lastVacated = other.arena.lastVacated)
    (hlive : linked.arena.live = other.arena.live)
    (hcapacity : linked.arena.capacity = other.arena.capacity)
    (hroom : linked.arena.room = other.arena.room) : linked = other := by
  obtain ⟨⟨_, _, _, _, _⟩, _, _⟩ := linked
  obtain ⟨⟨_, _, _, _, _⟩, _, _⟩ := other
  simp only at hroot hsize hslots hlast hlive hcapacity hroom
  rw [hroot, hsize, hslots, hlast, hlive, hcapacity, hroom]

/-- Two linked trees that show the same tree are the same if one is the other relinked, and if they
agree on the slots outside of the tree. -/
theorem Shows.unique (h : linked.Shows tree) (h' : other.Shows tree)
    (hrelinked : other.Relinked linked)
    (houtside : ∀ id ∉ tree.slots, linked.arena.slots[id]? = other.arena.slots[id]?) :
    linked = other := by
  have hslots : linked.arena.slots = other.arena.slots := by
    apply Array.ext_getElem?
    intro id
    by_cases hid : id ∈ tree.slots
    · exact h.2.slots_eq h'.2 id hid
    · exact houtside id hid
  exact eq_of_slots (h.1.trans h'.1.symm) hrelinked.size hslots hrelinked.lastVacated
    hrelinked.live hrelinked.capacity hrelinked.room

/-- Two linked trees with the same layout are the same. -/
theorem LaidOut.unique (h : linked.LaidOut layout) (h' : other.LaidOut layout) :
    linked = other := by
  have hslots : linked.arena.slots = other.arena.slots :=
    h.storage.slots_eq h'.storage (h.shows.2.slots_eq h'.shows.2)
  obtain ⟨hlast, -⟩ := h.storage.chain.unique h'.storage.chain
  exact eq_of_slots (h.shows.1.trans h'.shows.1.symm) (h.size.trans h'.size.symm) hslots hlast
    (h.storage.live.trans h'.storage.live.symm) (h.capacity.trans h'.capacity.symm)
    (h.room.trans h'.room.symm)

end LinkedTree

end RedBlack
