import RedBlack.Arena.Node
import RedBlack.Event
import RedBlack.Fault

/-!
# The Arena

Slots for nodes, numbered from zero. A vacated slot joins a free list, which is threaded
through the vacant slots themselves, and is given out again before a new slot is opened.
Storage grows the way a vector does: to twice its capacity, to what is needed or to a least
capacity that depends on how large a slot is, whichever is most.

`get` and `modify` reach live nodes only; every other use of a slot number is a `Fault`.
-/

namespace RedBlack

/-- What a slot holds. -/
inductive Slot (K V : Type) where
  /-- A live node. -/
  | occupied (node : Node K V)
  /-- Nothing; `next` is the slot that was vacated before this one. -/
  | vacant (next : Link)

/-- What there is room for in memory. -/
structure Room where
  /-- The greatest capacity that memory allows. -/
  most : Nat
  /-- The number of bytes of a slot, which grows with keys and values. -/
  slotSize : Nat
deriving DecidableEq

/-- The least capacity of storage that has grown: four slots or, if they are larger than a
kilobyte, a single one. With its links, a slot is never as small as a byte, of which there would be
more. -/
def Room.least (room : Room) : Nat :=
  if room.slotSize ≤ 1024 then 4 else 1

/-- Node storage with a free list of vacated slots. -/
structure Arena (K V : Type) where
  /-- The slots given out so far. -/
  slots : Array (Slot K V)
  /-- The slot vacated last, from which the free list starts. -/
  lastVacated : Link
  /-- The number of live nodes. -/
  live : Nat
  /-- The number of slots that fit without growing. -/
  capacity : Nat
  /-- What there is room for. -/
  room : Room

namespace Arena

variable {K V : Type}

/-- What the memory of a process has room for by default, if keys and values are a few bytes. -/
def defaultRoom : Room := { most := 3999999999, slotSize := 32 }

/-- The greatest number of slots. Slot numbers have 32 bits, and the last of them, 2^32 - 1, is
never given out. -/
def maxSlots : Nat := 4294967295

/-- An arena without slots. -/
def empty (room : Room) : Arena K V :=
  { slots := #[], lastVacated := none, live := 0, capacity := 0, room }

/-- The capacity after growing to hold at least `needed` slots. -/
def grownCapacity (room : Room) (capacity needed : Nat) : Nat :=
  max (max (2 * capacity) needed) room.least

/-- Make sure that `additional` more slots fit. -/
def reserve (arena : Arena K V) (additional : Nat) : Except Shortage (Arena K V) :=
  let needed := arena.slots.size + additional
  if maxSlots < needed then .error .indexSpace
  else if needed ≤ arena.capacity then .ok arena
  else
    let grown := grownCapacity arena.room arena.capacity needed
    if arena.room.most < grown then .error .memory
    else .ok { arena with capacity := grown }

/-- An arena with room for `capacity` slots; nothing is reserved for none. -/
def withCapacity (room : Room) (capacity : Nat) : Except Shortage (Arena K V) :=
  if capacity = 0 then .ok (empty room) else (empty room).reserve capacity

/-- The live node in a slot, if there is one. -/
def node? (arena : Arena K V) (id : SlotId) : Option (Node K V) :=
  match arena.slots[id]? with
  | some (.occupied node) => some node
  | _ => none

/-- The live node in a slot. -/
def get (arena : Arena K V) (id : SlotId) : Except Fault (Node K V) :=
  match arena.slots[id]? with
  | some (.occupied node) => .ok node
  | some (.vacant _) => .error .danglingNode
  | none => .error (.outOfBounds arena.slots.size id)

/-- Put a node into a slot. -/
def write (arena : Arena K V) (id : SlotId) (node : Node K V) : Arena K V :=
  { arena with slots := arena.slots.setIfInBounds id (.occupied node) }

/-- Mark a slot vacant, followed by the slots that are on the free list. -/
def mark (arena : Arena K V) (id : SlotId) : Arena K V :=
  { arena with slots := arena.slots.setIfInBounds id (.vacant arena.lastVacated) }

/-- A bound on the length of every path that meets each slot at most once. -/
def budget (arena : Arena K V) : Nat :=
  arena.slots.size + 1

/-- A copy of the arena, which has room for exactly the slots in use. -/
def copy (arena : Arena K V) : Arena K V :=
  { arena with capacity := arena.slots.size }

end Arena

/-- An action on an arena, which keeps what it has written when it ends in a fault. -/
abbrev ArenaM (K V : Type) := EStateM Fault (Arena K V)

namespace Arena

variable {K V : Type}

/-- Change the live node in a slot. -/
def modify (id : SlotId) (change : Node K V → Node K V) : ArenaM K V Unit :=
  fun arena =>
    match arena.slots[id]? with
    | some (.occupied node) => .ok () (arena.write id (change node))
    | some (.vacant _) => .error .danglingNode arena
    | none => .error (.outOfBounds arena.slots.size id) arena

/-- Forget all slots and keep the capacity. -/
def reset : ArenaM K V Unit :=
  fun arena =>
    if arena.live = 0 then .ok () { arena with slots := #[], lastVacated := none }
    else .error (.resetWithLiveNodes arena.live) arena

/-- Open a new slot for a node. A shortage of storage changes nothing. -/
def push (node : Node K V) : ArenaM K V (Except Shortage SlotId) :=
  fun arena =>
    match arena.reserve 1 with
    | .error cause => .ok (.error cause) arena
    | .ok { slots, lastVacated, live, capacity, room } =>
      .ok (.ok slots.size)
        { slots := slots.push (.occupied node), lastVacated, live := live + 1, capacity, room }

/-- Put a node into the slot vacated last. -/
def reuse (id : SlotId) (node : Node K V) : ArenaM K V SlotId :=
  fun arena =>
    match arena.slots[id]? with
    | some (.vacant next) =>
      .ok id { arena.write id node with lastVacated := next, live := arena.live + 1 }
    | some (.occupied _) => .error .corruptFreeList (arena.write id node)
    | none => .error (.outOfBounds arena.slots.size id) arena

/-- Store a red node without children in the slot vacated last or, if no slot is vacant, in
a new one. -/
def alloc (key : K) (value : V) (parent : Link) : ArenaM K V (Except Shortage SlotId) :=
  fun arena =>
    match arena.lastVacated with
    | none => push (Node.leaf key value parent) arena
    | some id => (Except.ok <$> reuse id (Node.leaf key value parent)) arena

/-- Vacate a slot and hand back its key and value. A slot that holds no node is marked
vacant once more before the fault is noticed. -/
def free (id : SlotId) : ArenaM K V (K × V) :=
  fun arena =>
    match arena.slots[id]? with
    | some (.occupied node) =>
      match arena.live with
      | 0 => .error .underflow { arena.mark id with lastVacated := some id }
      | live + 1 => .ok node.entry { arena.mark id with lastVacated := some id, live }
    | some (.vacant _) => .error .doubleFree (arena.mark id)
    | none => .error (.outOfBounds arena.slots.size id) arena

end Arena

end RedBlack
