import Mathlib.Data.List.Nodup
import Mathlib.Data.List.Range
import RedBlack.Arena.Lemmas

/-!
# Storage of Nodes

An arena as two lists of slots: `Arena.Holds arena occupied vacated` says that the live nodes
lie in the slots `occupied`, that the free list runs through the slots `vacated` in this
order, the one vacated last first, and that there are no other slots.

The module introduces:

* `Arena.Chain` — the free list from one of its links on;
* `Arena.fit` and `Arena.allot` — the capacity after growing and the slot of the next node,
  as functions of the number of slots;
* `Arena.Holds`, with what allocating, vacating and resetting do to it
  (`Holds.alloc_eq`, `Holds.free_eq_ok`, `Holds.reset_eq_ok`).
-/

namespace RedBlack

/-- However small a slot is, no more than four are asked for without need. -/
theorem Room.least_le (room : Room) : room.least ≤ 4 := by
  rw [least]
  split <;> omega

namespace Arena

variable {K V : Type} {arena other : Arena K V} {occupied vacated : List SlotId} {id : SlotId}
  {link : Link}

/-! ## The free list -/

/-- The free list runs from a link through the given slots. -/
def Chain (arena : Arena K V) : Link → List SlotId → Prop
  | link, [] => link = none
  | link, id :: rest =>
    link = some id ∧ ∃ next, arena.slots[id]? = some (.vacant next) ∧ arena.Chain next rest

/-- The free list depends only on the slots it runs through. -/
theorem Chain.congr (h : arena.Chain link vacated)
    (hsame : ∀ id ∈ vacated, ∀ next, arena.slots[id]? = some (.vacant next) →
      other.slots[id]? = some (.vacant next)) : other.Chain link vacated := by
  induction vacated generalizing link with
  | nil => exact h
  | cons id rest ih =>
    obtain ⟨hlink, next, hslot, hrest⟩ := h
    refine ⟨hlink, next, hsame id List.mem_cons_self next hslot, ih hrest ?_⟩
    exact fun other hother => hsame other (List.mem_cons_of_mem _ hother)

/-- The slots on the free list hold no node. -/
theorem Chain.node?_eq_none (h : arena.Chain link vacated) (hid : id ∈ vacated) :
    arena.node? id = none := by
  induction vacated generalizing link with
  | nil => cases hid
  | cons first rest ih =>
    obtain ⟨-, next, hslot, hrest⟩ := h
    rcases List.mem_cons.1 hid with rfl | hid
    · rw [node?, hslot]
    · exact ih hrest hid

/-- The entries in the slots, one slot after the other. -/
def bySlot (arena : Arena K V) : List (Option (K × V)) :=
  (List.range arena.slots.size).map fun id => (arena.node? id).map Node.entry

/-! ## Growing -/

/-- Of a room, storage that grows looks at the least capacity alone. -/
theorem grownCapacity_congr {capacity needed : Nat} {room room' : Room}
    (hleast : room.least = room'.least) :
    grownCapacity room capacity needed = grownCapacity room' capacity needed := by
  rw [grownCapacity, grownCapacity, hleast]

/-- The capacity that makes `needed` slots fit. -/
def fit (capacity : Nat) (room : Room) (needed : Nat) : Except Shortage Nat :=
  if maxSlots < needed then .error .indexSpace
  else if needed ≤ capacity then .ok capacity
  else if room.most < grownCapacity room capacity needed then .error .memory
  else .ok (grownCapacity room capacity needed)

/-- Slots fit either into the capacity as it is, or into one that has grown. -/
theorem of_fit_eq_ok {capacity needed grown : Nat} {room : Room}
    (h : fit capacity room needed = .ok grown) :
    (needed ≤ capacity ∧ grown = capacity) ∨
      (capacity < needed ∧ grown = grownCapacity room capacity needed) := by
  rw [fit] at h
  grind

/-- Slots that fit have numbers. -/
theorem le_maxSlots_of_fit {capacity needed grown : Nat} {room : Room}
    (h : fit capacity room needed = .ok grown) : needed ≤ maxSlots := by
  rw [fit] at h
  grind

/-- How much memory there is decides only whether the slots fit, and how large they are only what
storage grows to. -/
theorem fit_unique {capacity needed grown grown' : Nat} {room room' : Room}
    (hleast : room.least = room'.least) (h : fit capacity room needed = .ok grown)
    (h' : fit capacity room' needed = .ok grown') : grown = grown' := by
  rcases of_fit_eq_ok h with ⟨hle, rfl⟩ | ⟨hlt, rfl⟩
  · rcases of_fit_eq_ok h' with ⟨-, rfl⟩ | ⟨hlt', -⟩
    · rfl
    · omega
  · rcases of_fit_eq_ok h' with ⟨hle', -⟩ | ⟨-, rfl⟩
    · omega
    · exact grownCapacity_congr hleast

/-- If memory is not short, slots fit exactly if they have numbers. -/
theorem fit_of_ne_memory {capacity needed : Nat} {room : Room}
    (h : fit capacity room needed ≠ .error .memory) :
    (maxSlots < needed ∧ fit capacity room needed = .error .indexSpace) ∨
      (needed ≤ maxSlots ∧ ∃ grown, fit capacity room needed = .ok grown) := by
  rw [fit] at h ⊢
  by_cases hmax : maxSlots < needed
  · exact .inl ⟨hmax, if_pos hmax⟩
  · rw [if_neg hmax] at h ⊢
    refine .inr ⟨Nat.le_of_not_lt hmax, ?_⟩
    -- the slots fit as they are, or storage grows
    by_cases hle : needed ≤ capacity
    · exact ⟨_, if_pos hle⟩
    · rw [if_neg hle] at h ⊢
      by_cases hshort : room.most < grownCapacity room capacity needed
      · exact absurd (if_pos hshort) h
      · exact ⟨_, if_neg hshort⟩

/-- Reserving changes the capacity only. -/
theorem reserve_eq (arena : Arena K V) (additional : Nat) :
    arena.reserve additional =
      (fit arena.capacity arena.room (arena.slots.size + additional)).map fun capacity =>
        { arena with capacity } := by
  simp only [reserve, fit]
  -- the two tests of `fit`, in the order of `reserve`
  split
  · rfl
  · split
    · rfl
    · split <;> rfl

/-- A new arena has a capacity and no slots. -/
theorem exists_of_withCapacity_eq_ok {room : Room} {capacity : Nat}
    (h : withCapacity room capacity = .ok arena) :
    ∃ capacity, arena = { Arena.empty room with capacity } := by
  rw [withCapacity] at h
  split at h
  · cases h
    exact ⟨0, rfl⟩
  · rw [reserve_eq] at h
    cases hfit : fit (Arena.empty room : Arena K V).capacity (Arena.empty room : Arena K V).room
        ((Arena.empty room : Arena K V).slots.size + capacity) with
    | error cause =>
      rw [hfit] at h
      cases h
    | ok grown =>
      rw [hfit] at h
      cases h
      exact ⟨grown, rfl⟩

/-- A new arena for some slots has the capacity that makes them fit. -/
theorem fit_of_withCapacity_eq_ok {room : Room} {capacity : Nat} (hsome : capacity ≠ 0)
    (h : withCapacity room capacity = .ok arena) : fit 0 room capacity = .ok arena.capacity := by
  have hneeded : (empty room : Arena K V).slots.size + capacity = capacity := Nat.zero_add _
  rw [withCapacity, if_neg hsome, reserve_eq, hneeded] at h
  have hfit : (fit 0 room capacity).map _ = .ok arena := h
  rcases hgrown : fit 0 room capacity with cause | grown
  · rw [hgrown] at hfit
    cases hfit
  · rw [hgrown] at hfit
    cases hfit
    rfl

/-- What is asked for fits into a new arena. -/
theorem le_capacity_of_withCapacity_eq_ok {room : Room} {capacity : Nat}
    (h : withCapacity room capacity = .ok arena) : capacity ≤ arena.capacity := by
  by_cases hzero : capacity = 0
  · rw [hzero]
    exact Nat.zero_le _
  · rcases of_fit_eq_ok (fit_of_withCapacity_eq_ok hzero h) with ⟨hle, -⟩ | ⟨-, hgrown⟩
    · omega
    · rw [hgrown, grownCapacity]
      omega

/-- The slot of the next node, the slots that stay vacant and the capacity, if `used` slots
hold nodes: the slot vacated last, or else a new one. -/
def allot (used : Nat) (vacated : List SlotId) (capacity : Nat) (room : Room) :
    Except Shortage (SlotId × List SlotId × Nat) :=
  match vacated with
  | id :: rest => .ok (id, rest, capacity)
  | [] => (fit capacity room (used + 1)).map fun capacity => (used, [], capacity)

/-- The slot vacated last is allotted, or the next one if none is vacant. -/
theorem of_allot_eq_ok {used capacity grown : Nat} {room : Room} {rest : List SlotId}
    (h : allot used vacated capacity room = .ok (id, rest, grown)) :
    vacated = id :: rest ∨ vacated = [] ∧ rest = [] ∧ id = used := by
  cases vacated with
  | cons first others =>
    cases h
    exact .inl rfl
  | nil =>
    rw [allot] at h
    rcases hfit : fit capacity room (used + 1) with cause | fitting
    all_goals
      rw [hfit] at h
      cases h
    exact .inr ⟨rfl, rfl, rfl⟩

/-- Slots that are allotted have numbers. -/
theorem le_maxSlots_of_allot {used capacity grown : Nat} {room : Room} {rest : List SlotId}
    (h : allot used vacated capacity room = .ok (id, rest, grown))
    (hused : used + vacated.length ≤ maxSlots) : used + 1 + rest.length ≤ maxSlots := by
  cases vacated with
  | cons first others =>
    cases h
    rw [List.length_cons] at hused
    omega
  | nil =>
    rw [allot] at h
    rcases hfit : fit capacity room (used + 1) with cause | fitting
    all_goals
      rw [hfit] at h
      cases h
    exact le_maxSlots_of_fit hfit

/-- The slot vacated last is allotted, or else the next one. -/
theorem eq_headD_of_allot {used capacity grown : Nat} {room : Room} {rest : List SlotId}
    (h : allot used vacated capacity room = .ok (id, rest, grown)) :
    id = vacated.headD (used + vacated.length) := by
  rcases of_allot_eq_ok h with rfl | ⟨rfl, -, rfl⟩
  · rfl
  · rfl

/-- If there is memory for one more slot, none is allotted exactly if none is vacant and all numbers
are given out. -/
theorem allot_eq_error_iff {used capacity : Nat} {room : Room}
    (hused : used + vacated.length ≤ maxSlots)
    (hroom : used + vacated.length < capacity ∨
      grownCapacity room capacity (used + vacated.length + 1) ≤ room.most) :
    (∃ cause, allot used vacated capacity room = .error cause) ↔
      vacated = [] ∧ used + vacated.length = maxSlots := by
  cases vacated with
  | cons id rest =>
    refine iff_of_false ?_ fun h => List.cons_ne_nil _ _ h.1
    rintro ⟨cause, hcause⟩
    cases hcause
  | nil =>
    rw [List.length_nil, Nat.add_zero] at hused hroom ⊢
    rw [allot, fit]
    by_cases hmax : maxSlots < used + 1
    · rw [if_pos hmax]
      exact iff_of_true ⟨_, rfl⟩ ⟨rfl, by omega⟩
    · rw [if_neg hmax]
      refine iff_of_false ?_ (by omega)
      rintro ⟨cause, hcause⟩
      -- the slot fits as it is, or storage grows
      split at hcause
      · cases hcause
      · rw [if_neg (by omega)] at hcause
        cases hcause

/-- Storage of the same capacity that grows alike allots alike. -/
theorem allot_congr {used capacity capacity' : Nat} {room room' : Room}
    (hcapacity : capacity = capacity') (hleast : room.least = room'.least)
    (hmost : room.most = room'.most) :
    allot used vacated capacity room = allot used vacated capacity' room' := by
  subst hcapacity
  have hfit : fit capacity room (used + 1) = fit capacity room' (used + 1) := by
    rw [fit, fit, grownCapacity_congr hleast, hmost]
  cases vacated with
  | cons id rest => rfl
  | nil => rw [allot, allot, hfit]

/-- If memory is not short, the same slot is allotted whatever the capacities are, or none because
all numbers are given out. Capacities that are the same stay the same. -/
theorem allot_of_ne_memory {used capacity capacity' : Nat} {room room' : Room}
    (h : allot used vacated capacity room ≠ .error .memory)
    (h' : allot used vacated capacity' room' ≠ .error .memory) :
    (allot used vacated capacity room = .error .indexSpace ∧
        allot used vacated capacity' room' = .error .indexSpace) ∨
      ∃ id rest grown grown', allot used vacated capacity room = .ok (id, rest, grown) ∧
        allot used vacated capacity' room' = .ok (id, rest, grown') ∧
        (capacity = capacity' ∧ room.least = room'.least → grown = grown') := by
  cases vacated with
  | cons id rest => exact .inr ⟨id, rest, capacity, capacity', rfl, rfl, And.left⟩
  | nil =>
    have hfit : fit capacity room (used + 1) ≠ .error .memory := by
      intro hshort
      exact h (by rw [allot, hshort]; rfl)
    have hfit' : fit capacity' room' (used + 1) ≠ .error .memory := by
      intro hshort
      exact h' (by rw [allot, hshort]; rfl)
    rcases fit_of_ne_memory hfit with ⟨hmax, hnone⟩ | ⟨hmax, grown, hgrown⟩
    · rcases fit_of_ne_memory hfit' with ⟨-, hnone'⟩ | ⟨hmax', -⟩
      · exact .inl ⟨by rw [allot, hnone]; rfl, by rw [allot, hnone']; rfl⟩
      · omega
    · rcases fit_of_ne_memory hfit' with ⟨hmax', -⟩ | ⟨-, grown', hgrown'⟩
      · omega
      · refine .inr ⟨used, [], grown, grown', by rw [allot, hgrown]; rfl,
          by rw [allot, hgrown']; rfl, ?_⟩
        rintro ⟨rfl, hleast⟩
        exact fit_unique hleast hgrown hgrown'

/-- Opening a slot for a node adds the node and no other. -/
theorem node?_of_slots_eq_push {node : Node K V}
    (h : other.slots = arena.slots.push (.occupied node)) (id : SlotId) :
    other.node? id = if arena.slots.size = id then some node else arena.node? id := by
  rw [node?, h, Array.getElem?_push]
  by_cases hid : arena.slots.size = id
  · rw [if_pos hid.symm, if_pos hid]
  · rw [if_neg (Ne.symm hid), if_neg hid]
    rfl

/-! ## Occupied and vacant slots -/

/-- The nodes lie in some slots, and the free list runs through all others. -/
structure Holds (arena : Arena K V) (occupied vacated : List SlotId) : Prop where
  /-- The free list runs through the vacant slots. -/
  chain : arena.Chain arena.lastVacated vacated
  /-- Every occupied slot holds a node. -/
  exists_node : ∀ id ∈ occupied, ∃ node, arena.node? id = some node
  /-- Every slot is either occupied or vacant, and is listed once. -/
  partition : (occupied ++ vacated).Perm (List.range arena.slots.size)
  /-- The nodes are counted. -/
  live : arena.live = occupied.length

namespace Holds

theorem empty (room : Room) : (Arena.empty room : Arena K V).Holds [] [] where
  chain := rfl
  exists_node := List.forall_mem_nil _
  partition := List.Perm.refl _
  live := rfl

section

variable (h : arena.Holds occupied vacated)

include h

theorem nodup : (occupied ++ vacated).Nodup :=
  h.partition.nodup_iff.2 List.nodup_range

theorem size_eq : arena.slots.size = occupied.length + vacated.length := by
  rw [← List.length_append, h.partition.length_eq, List.length_range]

/-- The occupied slots are those that hold a node. -/
theorem mem_occupied_iff : id ∈ occupied ↔ ∃ node, arena.node? id = some node := by
  refine ⟨h.exists_node id, ?_⟩
  rintro ⟨node, hnode⟩
  have hid : id ∈ occupied ++ vacated :=
    h.partition.mem_iff.2 (List.mem_range.2 (lt_size_of_node? hnode))
  -- a slot that is not occupied lies on the free list, and holds no node there
  rcases List.mem_append.1 hid with hid | hid
  · exact hid
  · rw [h.chain.node?_eq_none hid] at hnode
    cases hnode

/-- Where no slot is vacant, every slot holds a node. -/
theorem exists_node_of_lt (hfull : vacated = []) (hid : id < arena.slots.size) :
    ∃ node, arena.node? id = some node := by
  subst hfull
  have hmem : id ∈ occupied ++ [] := h.partition.mem_iff.2 (List.mem_range.2 hid)
  rw [List.append_nil] at hmem
  exact h.exists_node id hmem

/-- The order in which the occupied slots are listed does not matter. -/
theorem perm {slots : List SlotId} (hperm : slots.Perm occupied) : arena.Holds slots vacated where
  chain := h.chain
  exists_node := fun id hid => h.exists_node id (hperm.mem_iff.1 hid)
  partition := (hperm.append_right vacated).trans h.partition
  live := h.live.trans hperm.length_eq.symm

/-- A slot that comes to the occupied ones held no node before. -/
theorem fresh {rest : List SlotId} (hafter : other.Holds (id :: occupied) rest) :
    arena.node? id = none ∧ id < other.slots.size := by
  have hnodup := (List.nodup_append'.1 hafter.nodup).1
  constructor
  · refine Option.eq_none_iff_forall_ne_some.2 fun node hnode => ?_
    exact (List.nodup_cons.1 hnodup).1 (h.mem_occupied_iff.2 ⟨node, hnode⟩)
  · obtain ⟨node, hnode⟩ := hafter.exists_node id List.mem_cons_self
    exact lt_size_of_node? hnode

/-- Writing a live node keeps all slots as they are listed. -/
theorem write {node : Node K V} (hnode : arena.node? id = some node) (new : Node K V) :
    (arena.write id new).Holds occupied vacated where
  chain := by
    refine h.chain.congr fun other hother next hnext => ?_
    -- the written slot holds a node, so it is not on the free list
    have hne : id ≠ other := by
      rintro rfl
      rw [h.chain.node?_eq_none hother] at hnode
      cases hnode
    exact (Array.getElem?_setIfInBounds_ne hne).trans hnext
  exists_node := fun other hother => by
    obtain ⟨kept, hkept⟩ := h.exists_node other hother
    rw [node?_write (lt_size_of_node? hnode), hkept]
    split <;> exact ⟨_, rfl⟩
  partition := by
    have hsizes : (arena.write id new).slots.size = arena.slots.size := size_write
    exact hsizes ▸ h.partition
  live := h.live

/-- Vacating an occupied slot puts it in front of the vacant ones. -/
theorem free_eq_ok {slots : List SlotId} {node : Node K V} (hperm : occupied.Perm (id :: slots))
    (hnode : arena.node? id = some node) :
    ∃ after, free id arena = .ok node.entry after ∧ after.Holds slots (id :: vacated) ∧
      (∀ other, after.node? other = if id = other then none else arena.node? other) ∧
      after.capacity = arena.capacity ∧ after.room = arena.room := by
  have h := h.perm hperm.symm
  have hsize := lt_size_of_node? hnode
  have hnodup := h.nodup
  rw [List.cons_append, List.nodup_cons, List.mem_append, not_or] at hnodup
  -- listed once, the vacated slot is neither among the others nor on the free list already
  obtain ⟨⟨hidslots, hidvacated⟩, -⟩ := hnodup
  refine ⟨_, free_of_node? hnode h.live, ⟨⟨rfl, arena.lastVacated, ?_, ?_⟩, ?_, ?_, rfl⟩,
    node?_mark, rfl, rfl⟩
  -- the slot itself now points to what was vacated before it
  · exact Array.getElem?_setIfInBounds_self_of_lt hsize
  · refine h.chain.congr fun other hother next hnext => ?_
    have hne : id ≠ other := fun heq => hidvacated (heq ▸ hother)
    exact (Array.getElem?_setIfInBounds_ne hne).trans hnext
  · intro other hother
    obtain ⟨kept, hkept⟩ := h.exists_node other (List.mem_cons_of_mem _ hother)
    have hne : id ≠ other := fun heq => hidslots (heq ▸ hother)
    exact ⟨kept, (node?_mark other).trans ((if_neg hne).trans hkept)⟩
  · refine List.perm_middle.trans ?_
    have hsizes : (arena.mark id).slots.size = arena.slots.size := size_mark
    exact hsizes ▸ h.partition

/-- An arena without nodes can be reset, which forgets its slots. -/
theorem reset_eq_ok (hnone : occupied = []) :
    ∃ after, reset arena = .ok () after ∧ after.Holds [] [] ∧
      after.capacity = arena.capacity ∧ after.room = arena.room := by
  have hlive : arena.live = 0 := h.live.trans (congrArg List.length hnone)
  refine ⟨{ arena with slots := #[], lastVacated := none }, ?_,
    ⟨rfl, List.forall_mem_nil _, ?_, hlive⟩, rfl, rfl⟩
  · rw [reset, if_pos hlive]
  · exact List.Perm.refl _

end

/-- The slot vacated last is given out again. -/
theorem alloc_cons (h : arena.Holds occupied (id :: vacated)) (key : K) (value : V)
    (parent : Link) :
    ∃ after, alloc key value parent arena = .ok (.ok id) after ∧
      after.Holds (id :: occupied) vacated ∧
      (∀ other, after.node? other =
        if id = other then some (Node.leaf key value parent) else arena.node? other) ∧
      after.capacity = arena.capacity ∧ after.room = arena.room := by
  obtain ⟨hlast, next, hslot, hrest⟩ := h.chain
  have hsize : id < arena.slots.size := (Array.getElem?_eq_some_iff.1 hslot).1
  have hnodup := h.nodup
  rw [List.perm_middle.nodup_iff, List.nodup_cons, List.mem_append, not_or] at hnodup
  -- listed once, the reused slot is neither occupied nor further down the free list
  obtain ⟨⟨hidoccupied, hidvacated⟩, -⟩ := hnodup
  refine ⟨_, alloc_of_vacant hlast hslot key value parent, ⟨?_, ?_, ?_, ?_⟩, node?_write hsize,
    rfl, rfl⟩
  · refine hrest.congr fun other hother next hnext => ?_
    have hne : id ≠ other := fun heq => hidvacated (heq ▸ hother)
    exact (Array.getElem?_setIfInBounds_ne hne).trans hnext
  · intro other hother
    rcases List.mem_cons.1 hother with rfl | hother
    · exact ⟨_, (node?_write hsize other).trans (if_pos rfl)⟩
    · obtain ⟨kept, hkept⟩ := h.exists_node other hother
      have hne : id ≠ other := fun heq => hidoccupied (heq ▸ hother)
      exact ⟨kept, (node?_write hsize other).trans ((if_neg hne).trans hkept)⟩
  · refine List.perm_middle.symm.trans (h.partition.trans ?_)
    have hsizes : (arena.write id (Node.leaf key value parent)).slots.size = arena.slots.size :=
      size_write
    exact hsizes ▸ List.Perm.refl _
  · exact congrArg Nat.succ h.live

/-- A new slot is opened if none is vacant. -/
theorem alloc_nil (h : arena.Holds occupied []) (key : K) (value : V) (parent : Link)
    {capacity : Nat} (hfit : fit arena.capacity arena.room (occupied.length + 1) = .ok capacity) :
    ∃ after, alloc key value parent arena = .ok (.ok occupied.length) after ∧
      after.Holds (occupied.length :: occupied) [] ∧
      (∀ other, after.node? other =
        if occupied.length = other then some (Node.leaf key value parent)
        else arena.node? other) ∧
      after.capacity = capacity ∧ after.room = arena.room := by
  have hlast : arena.lastVacated = none := h.chain
  have hsize : arena.slots.size = occupied.length := h.size_eq
  let after : Arena K V :=
    { arena with
      slots := arena.slots.push (.occupied (Node.leaf key value parent))
      live := arena.live + 1
      capacity }
  have hnode : ∀ id, after.node? id =
      if occupied.length = id then some (Node.leaf key value parent) else arena.node? id := by
    rw [← hsize]
    exact node?_of_slots_eq_push rfl
  refine ⟨after, ?_, ⟨hlast, ?_, ?_, congrArg Nat.succ h.live⟩, hnode, rfl, rfl⟩
  · simp only [alloc, hlast, push, reserve_eq, hsize, hfit, Except.map, after]
  · intro id hid
    rw [hnode]
    split
    · exact ⟨_, rfl⟩
    · next hne => exact h.exists_node id ((List.mem_cons.1 hid).resolve_left (Ne.symm hne))
  -- the new slot is the next number
  · have hafter : after.slots.size = occupied.length + 1 := by
      rw [← hsize]
      exact Array.size_push _
    rw [hafter, List.range_succ, ← hsize]
    exact (h.partition.cons _).trans (List.perm_append_singleton _ _).symm

/-- A shortage changes nothing. -/
theorem alloc_refused (h : arena.Holds occupied []) (key : K) (value : V) (parent : Link)
    {cause : Shortage}
    (hfit : fit arena.capacity arena.room (occupied.length + 1) = .error cause) :
    alloc key value parent arena = .ok (.error cause) arena := by
  have hlast : arena.lastVacated = none := h.chain
  have hsize : arena.slots.size = occupied.length := h.size_eq
  simp only [alloc, hlast, push, reserve_eq, hsize, hfit, Except.map]

/-- Allocating gives out the allotted slot, or changes nothing. -/
theorem alloc_eq (h : arena.Holds occupied vacated) (key : K) (value : V) (parent : Link) :
    match allot occupied.length vacated arena.capacity arena.room with
    | .error cause => alloc key value parent arena = .ok (.error cause) arena
    | .ok (id, rest, capacity) =>
      ∃ after, alloc key value parent arena = .ok (.ok id) after ∧
        after.Holds (id :: occupied) rest ∧
        (∀ other, after.node? other =
          if id = other then some (Node.leaf key value parent) else arena.node? other) ∧
        after.capacity = capacity ∧ after.room = arena.room := by
  cases vacated with
  | cons id rest => exact h.alloc_cons key value parent
  | nil =>
    cases hfit : fit arena.capacity arena.room (occupied.length + 1) with
    | error cause =>
      simp only [allot, hfit, Except.map]
      exact h.alloc_refused key value parent hfit
    | ok capacity =>
      simp only [allot, hfit, Except.map]
      exact h.alloc_nil key value parent hfit

end Holds

end Arena

end RedBlack
