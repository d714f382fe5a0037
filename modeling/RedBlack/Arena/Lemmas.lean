import RedBlack.Arena.Basic

/-!
# Lemmas on the Arena

What every operation does to `node?`, the finite map from slots to live nodes. On a live
slot `get`, `modify` and `free` succeed, and none of them touches another slot
(`node?_write`, `node?_mark`).
-/

namespace RedBlack

namespace Arena

variable {K V : Type} {arena : Arena K V} {id : SlotId} {node : Node K V}

/-- A live node lies in a slot that was given out. -/
theorem slots_eq_of_node? (h : arena.node? id = some node) :
    arena.slots[id]? = some (.occupied node) := by
  unfold node? at h
  split at h <;> simp_all

/-- A slot with a live node is in bounds. -/
theorem lt_size_of_node? (h : arena.node? id = some node) : id < arena.slots.size :=
  (Array.getElem?_eq_some_iff.1 (slots_eq_of_node? h)).1

/-- Exactly the live nodes can be read. -/
theorem get_eq_ok_iff : arena.get id = .ok node ↔ arena.node? id = some node := by
  unfold get node?
  split <;> simp_all

/-- A live node can be changed. -/
theorem modify_of_node? (h : arena.node? id = some node) (change : Node K V → Node K V) :
    modify id change arena = .ok () (arena.write id (change node)) := by
  simp [modify, slots_eq_of_node? h]

/-- Writing a slot in bounds stores the node there and nowhere else. -/
theorem node?_write (h : id < arena.slots.size) (other : SlotId) :
    (arena.write id node).node? other = if id = other then some node else arena.node? other := by
  unfold node? write
  by_cases heq : id = other
  · subst heq
    simp [h]
  · simp [heq]

/-- Marking a slot takes its node away and no other. -/
theorem node?_mark (other : SlotId) :
    (arena.mark id).node? other = if id = other then none else arena.node? other := by
  unfold node? mark
  by_cases heq : id = other
  · subst heq
    by_cases h : id < arena.slots.size <;> simp [h]
  · simp [heq]

/-- Writing opens no slot. -/
@[simp]
theorem size_write : (arena.write id node).slots.size = arena.slots.size := by
  simp [write]

/-- Marking opens no slot. -/
@[simp]
theorem size_mark : (arena.mark id).slots.size = arena.slots.size := by
  simp [mark]

/-- Vacating a live slot gives its entry, takes its node away and no other, and puts the slot
in front of the free list. -/
theorem free_of_node? {live : Nat} (h : arena.node? id = some node)
    (hlive : arena.live = live + 1) :
    free id arena = .ok node.entry { arena.mark id with lastVacated := some id, live } := by
  simp [free, slots_eq_of_node? h, hlive]

/-- The slot vacated last gets the next node, and the free list goes on behind it. -/
theorem alloc_of_vacant {next : Link} (hlast : arena.lastVacated = some id)
    (hslot : arena.slots[id]? = some (.vacant next)) (key : K) (value : V) (parent : Link) :
    alloc key value parent arena = .ok (.ok id)
      { arena.write id (Node.leaf key value parent) with
        lastVacated := next, live := arena.live + 1 } := by
  simp only [alloc, hlast, Functor.map, EStateM.map, reuse, hslot]

/-- Where the free list leads to a live node, storing a node writes over it. -/
theorem alloc_of_live (hlast : arena.lastVacated = some id) (hnode : arena.node? id = some node)
    (key : K) (value : V) (parent : Link) :
    alloc key value parent arena =
      .error .corruptFreeList (arena.write id (Node.leaf key value parent)) := by
  simp only [alloc, hlast, Functor.map, EStateM.map, reuse, slots_eq_of_node? hnode]

end Arena

end RedBlack
