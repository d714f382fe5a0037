import Mathlib.Data.Finmap
import RedBlack.Proofs.Arena.Storage

/-!
# Storage as a Finite Map

Node storage on its own, without a tree, is a finite map from slot numbers to nodes. A
`Registry` is this map together with the vacant slots in the order in which they are given out
again, and says what each use of storage answers (`Registry.perform`); using a slot without a
node has no answer.

Storage behaves like the registry in every sequence of uses (`Arena.run_refines_registry`):
where the registry has no answer, storage runs into a fault, and otherwise it gives the same
answers and holds the same nodes. The free list then runs through the vacant slots
(`Registry.Describes`), a new node gets a slot that was not live (`Registry.Admits`), and
exactly the live slots can be reached.
-/

namespace RedBlack

variable {K V : Type}

/-! ## Uses of storage -/

namespace Arena

/-- A use of storage. Slots are named by links, which may be missing. -/
inductive Action (K V : Type) where
  /-- Store a node without children. -/
  | alloc (key : K) (value : V) (parent : Link)
  /-- Vacate a slot. -/
  | free (link : Link)
  /-- Look at a node. -/
  | get (link : Link)
  /-- Change a node. -/
  | modify (link : Link) (change : Node K V → Node K V)
  /-- Forget all slots. -/
  | reset

/-- What storage answers. -/
inductive Outcome (K V : Type) where
  /-- The slot of the new node, unless there is none. -/
  | allocated (result : Except Shortage SlotId)
  /-- The key and value of the node that was in the slot. -/
  | freed (entry : K × V)
  /-- The node in the slot. -/
  | found (node : Node K V)
  /-- There is nothing to say. -/
  | done

/-- Look at the live node in a slot. -/
def read (id : SlotId) : ArenaM K V (Node K V) := do
  let arena ← MonadState.get
  MonadExcept.ofExcept (arena.get id)

/-- Use storage once. -/
def Action.perform : Action K V → ArenaM K V (Outcome K V)
  | alloc key value parent => return .allocated (← Arena.alloc key value parent)
  | free link => do
    let id ← MonadExcept.ofExcept link.resolve
    return .freed (← Arena.free id)
  | get link => do
    let id ← MonadExcept.ofExcept link.resolve
    return .found (← read id)
  | modify link change => do
    let id ← MonadExcept.ofExcept link.resolve
    Arena.modify id change
    return .done
  | reset => do
    Arena.reset
    return .done

/-- Use storage several times. Gives all answers. -/
def run : List (Action K V) → ArenaM K V (List (Outcome K V))
  | [] => return []
  | action :: actions => do
    let outcome ← action.perform
    return outcome :: (← run actions)

/-- The link that must lead to a node. -/
def Action.target? : Action K V → Option Link
  | free link | get link | modify link _ => some link
  | alloc _ _ _ | reset => none

end Arena

open Arena (Action Outcome)

/-! ## Registries -/

/-- Which nodes lie in which slots. -/
structure Registry (K V : Type) where
  /-- The nodes in their slots. -/
  nodes : Finmap fun _ : SlotId => Node K V
  /-- The vacant slots, the one vacated last first. -/
  vacated : List SlotId
  /-- The number of slots that fit without growing. -/
  capacity : Nat
  /-- What there is room for. -/
  room : Room

namespace Registry

/-- A registry without nodes. -/
def new (capacity : Nat) (room : Room) : Registry K V :=
  { nodes := ∅, vacated := [], capacity, room }

/-- Store a node in the slot that is allotted to it. -/
def alloc (registry : Registry K V) (key : K) (value : V) (parent : Link) :
    Except Shortage SlotId × Registry K V :=
  match Arena.allot registry.nodes.keys.card registry.vacated registry.capacity registry.room with
  | .error cause => (.error cause, registry)
  | .ok (id, vacated, capacity) =>
    (.ok id, { registry with
      nodes := registry.nodes.insert id (Node.leaf key value parent), vacated, capacity })

/-- Take the node out of a slot, which is then the first to be given out again. -/
def free (registry : Registry K V) (id : SlotId) : Option ((K × V) × Registry K V) :=
  (registry.nodes.lookup id).map fun node =>
    (node.entry,
      { registry with nodes := registry.nodes.erase id, vacated := id :: registry.vacated })

/-- The node in a slot. -/
def get (registry : Registry K V) (id : SlotId) : Option (Node K V × Registry K V) :=
  (registry.nodes.lookup id).map fun node => (node, registry)

/-- Change the node in a slot. -/
def modify (registry : Registry K V) (id : SlotId) (change : Node K V → Node K V) :
    Option (Unit × Registry K V) :=
  (registry.nodes.lookup id).map fun node =>
    ((), { registry with nodes := registry.nodes.insert id (change node) })

/-- Forget the vacant slots, if there are no others. -/
def reset (registry : Registry K V) : Option (Unit × Registry K V) :=
  if registry.nodes.keys = ∅ then some ((), { registry with vacated := [] }) else none

/-- The answer to a use of storage and the registry afterwards, unless there is no answer. -/
def perform (registry : Registry K V) : Action K V → Option (Outcome K V × Registry K V)
  | .alloc key value parent => do
    let (result, registry) ← some (registry.alloc key value parent)
    return (.allocated result, registry)
  | .free link => do
    let id ← link
    let (entry, registry) ← registry.free id
    return (.freed entry, registry)
  | .get link => do
    let id ← link
    let (node, registry) ← registry.get id
    return (.found node, registry)
  | .modify link change => do
    let id ← link
    let ((), registry) ← registry.modify id change
    return (.done, registry)
  | .reset => do
    let ((), registry) ← registry.reset
    return (.done, registry)

/-- The answers to several uses of storage and the registry afterwards. -/
def run : List (Action K V) → Registry K V → Option (List (Outcome K V) × Registry K V)
  | [], registry => some ([], registry)
  | action :: actions, registry => do
    let (outcome, registry) ← registry.perform action
    let (outcomes, registry) ← run actions registry
    return (outcome :: outcomes, registry)

/-- Storage holds what is registered: the nodes in their slots, and the free list through the
vacant slots in their order. -/
structure Describes (registry : Registry K V) (arena : Arena K V) : Prop where
  /-- The same nodes lie in the same slots. -/
  node? : ∀ id, arena.node? id = registry.nodes.lookup id
  /-- The free list runs through the vacant slots, the one vacated last first. -/
  chain : arena.Chain arena.lastVacated registry.vacated
  /-- No slot is on the free list twice. -/
  nodup : registry.vacated.Nodup
  /-- The slots on the free list are those in use that hold no node. -/
  mem_vacated : ∀ id, id ∈ registry.vacated ↔ id < arena.slots.size ∧ arena.node? id = none
  /-- The nodes are counted. -/
  live : arena.live = registry.nodes.keys.card
  /-- There are no other slots. -/
  size : arena.slots.size = registry.nodes.keys.card + registry.vacated.length
  /-- Every slot has a number. -/
  size_le : arena.slots.size ≤ Arena.maxSlots

/-- What storage answers when a node is to be stored. -/
structure Admits (registry : Registry K V) (arena : Arena K V) (node : Node K V)
    (answer : Except Shortage SlotId) (after : Arena K V) : Prop where
  /-- The node gets the slot vacated last or, if none is vacant, the next number. -/
  slot : ∀ id, answer = .ok id → id = registry.vacated.headD arena.slots.size
  /-- The slot was not live and has a number that is given out. -/
  fresh : ∀ id, answer = .ok id → arena.node? id = none ∧ id < Arena.maxSlots
  /-- The node lies there, and no other has changed. -/
  node? : ∀ id, answer = .ok id → ∀ other,
    after.node? other = if id = other then some node else arena.node? other
  /-- Where no slot is given out, nothing changes. -/
  refused : ∀ cause, answer = .error cause → after = arena
  /-- If another slot fits or memory allows it, none is given out only if none is vacant and all
  numbers are in use. -/
  exhausted : arena.slots.size < arena.capacity ∨
      Arena.grownCapacity arena.room arena.capacity (arena.slots.size + 1) ≤ arena.room.most →
    ((∃ cause, answer = .error cause) ↔
      registry.vacated = [] ∧ arena.slots.size = Arena.maxSlots)

end Registry

/-! ## Dead slots -/

namespace Arena

variable {arena : Arena K V} {id : SlotId} (hdead : arena.node? id = none)

include hdead

/-- A slot without a node cannot be read. -/
theorem get_of_dead : ∃ fault, arena.get id = .error fault := by
  rw [get]
  rcases hslot : arena.slots[id]? with _ | ⟨node⟩ | ⟨next⟩
  · exact ⟨_, rfl⟩
  · rw [node?, hslot] at hdead
    cases hdead
  · exact ⟨_, rfl⟩

/-- A slot without a node cannot be changed. -/
theorem modify_of_dead (change : Node K V → Node K V) :
    ∃ fault after, modify id change arena = .error fault after := by
  rw [modify]
  rcases hslot : arena.slots[id]? with _ | ⟨node⟩ | ⟨next⟩
  · exact ⟨_, _, rfl⟩
  · rw [node?, hslot] at hdead
    cases hdead
  · exact ⟨_, _, rfl⟩

/-- A slot without a node cannot be vacated. -/
theorem free_of_dead : ∃ fault after, free id arena = .error fault after := by
  rw [free]
  rcases hslot : arena.slots[id]? with _ | ⟨node⟩ | ⟨next⟩
  · exact ⟨_, _, rfl⟩
  · rw [node?, hslot] at hdead
    cases hdead
  · exact ⟨_, _, rfl⟩

end Arena

/-! ## One use -/

namespace Registry

variable {registry : Registry K V} {arena : Arena K V} {occupied : List SlotId}

/-- Storage is as registered, with its occupied slots listed. -/
structure Tracks (registry : Registry K V) (arena : Arena K V) (occupied : List SlotId) :
    Prop where
  /-- The nodes lie in the occupied slots, and the others are on the free list. -/
  holds : arena.Holds occupied registry.vacated
  /-- The same nodes lie in the same slots. -/
  node? : ∀ id, arena.node? id = registry.nodes.lookup id
  /-- The capacity is the same. -/
  capacity : arena.capacity = registry.capacity
  /-- The room is the same. -/
  room : arena.room = registry.room
  /-- Every slot has a number. -/
  size_le : occupied.length + registry.vacated.length ≤ Arena.maxSlots

namespace Tracks

variable (h : registry.Tracks arena occupied)

include h

/-- The registered slots are the occupied ones. -/
theorem keys_eq : registry.nodes.keys = occupied.toFinset := by
  ext id
  rw [Finmap.mem_keys, Finmap.mem_iff, List.mem_toFinset, h.holds.mem_occupied_iff, h.node?]

theorem card_keys : registry.nodes.keys.card = occupied.length := by
  rw [h.keys_eq]
  exact List.toFinset_card_of_nodup (List.nodup_append'.1 h.holds.nodup).1

theorem keys_eq_empty_iff : registry.nodes.keys = ∅ ↔ occupied = [] := by
  rw [h.keys_eq, List.toFinset_eq_empty_iff]

end Tracks

/-- Another node in a slot changes what is found there and nowhere else. -/
theorem lookup_insert (nodes : Finmap fun _ : SlotId => Node K V) (id : SlotId) (node : Node K V)
    (other : SlotId) :
    (nodes.insert id node).lookup other = if id = other then some node else nodes.lookup other := by
  split
  · next heq => exact heq ▸ Finmap.lookup_insert nodes
  · next hne => exact Finmap.lookup_insert_of_ne nodes (Ne.symm hne)

/-- Without its node, a slot is empty, and the others stay. -/
theorem lookup_erase (nodes : Finmap fun _ : SlotId => Node K V) (id other : SlotId) :
    (nodes.erase id).lookup other = if id = other then none else nodes.lookup other := by
  split
  · next heq => exact heq ▸ Finmap.lookup_erase id nodes
  · next hne => exact Finmap.lookup_erase_ne (Ne.symm hne)

/-- Storage answers what is expected and is as registered afterwards; where nothing is expected, it
runs into a fault. -/
def Meets {α : Type} (action : ArenaM K V α) (arena : Arena K V) :
    Option (α × Registry K V) → Prop
  | none => ∃ fault after, action arena = .error fault after
  | some (answer, registry) =>
    ∃ after, action arena = .ok answer after ∧ ∃ occupied, registry.Tracks after occupied

namespace Meets

variable {α β : Type} {action : ArenaM K V α} {next : α → ArenaM K V β}

theorem pure (h : registry.Tracks arena occupied) (answer : α) :
    Meets (Pure.pure answer) arena (some (answer, registry)) :=
  ⟨arena, rfl, occupied, h⟩

/-- What is expected of two actions, one after the other. -/
theorem bind {expected : Option (α × Registry K V)}
    {expect : α × Registry K V → Option (β × Registry K V)} (h : Meets action arena expected)
    (hnext : ∀ answer registry after occupied, registry.Tracks after occupied →
      Meets (next answer) after (expect (answer, registry))) :
    Meets (action >>= next) arena (expected >>= expect) := by
  rcases expected with _ | ⟨answer, registry⟩
  · obtain ⟨fault, after, hfault⟩ := h
    exact ⟨fault, after, by simp only [Bind.bind, EStateM.bind, hfault]⟩
  · obtain ⟨after, hok, occupied, htracks⟩ := h
    have hrest := hnext answer registry after occupied htracks
    have hbind : (action >>= next) arena = next answer after := by
      simp only [Bind.bind, EStateM.bind, hok]
    rw [Option.bind_eq_bind, Option.bind_some]
    rcases hexpect : expect (answer, registry) with _ | ⟨answer', registry'⟩
    all_goals
      rw [hexpect] at hrest
      rw [Meets, hbind]
      exact hrest

/-- A missing link leads nowhere, any other one to its slot. -/
theorem resolve {next : SlotId → ArenaM K V β} {expect : SlotId → Option (β × Registry K V)}
    (link : Link) (h : ∀ id, Meets (next id) arena (expect id)) :
    Meets (MonadExcept.ofExcept link.resolve >>= next) arena (link >>= expect) := by
  cases link with
  | none => exact ⟨.missingLink, arena, rfl⟩
  | some id => exact h id

end Meets

namespace Tracks

variable (h : registry.Tracks arena occupied)

include h

theorem alloc (key : K) (value : V) (parent : Link) :
    Meets (Arena.alloc key value parent) arena (some (registry.alloc key value parent)) := by
  have halloc := h.holds.alloc_eq key value parent
  rw [h.capacity, h.room] at halloc
  rw [Registry.alloc, h.card_keys]
  rcases hallot : Arena.allot occupied.length registry.vacated registry.capacity registry.room with
    cause | ⟨id, vacated, capacity⟩
  all_goals rw [hallot] at halloc
  · exact ⟨arena, halloc, occupied, h⟩
  · obtain ⟨after, hok, hholds, hnode, hcapacity, hroom⟩ := halloc
    refine ⟨after, hok, id :: occupied, hholds, fun other => ?_, hcapacity, hroom, ?_⟩
    · rw [hnode, lookup_insert, h.node?]
    · exact Arena.le_maxSlots_of_allot hallot h.size_le

theorem free (id : SlotId) : Meets (Arena.free id) arena (registry.free id) := by
  rw [Registry.free]
  rcases hlookup : registry.nodes.lookup id with _ | node
  · exact Arena.free_of_dead ((h.node? id).trans hlookup)
  · have hnode := (h.node? id).trans hlookup
    have hperm := List.perm_cons_erase (h.holds.mem_occupied_iff.2 ⟨node, hnode⟩)
    obtain ⟨after, hok, hholds, hafter, hcapacity, hroom⟩ := h.holds.free_eq_ok hperm hnode
    refine ⟨after, hok, occupied.erase id, hholds, fun other => ?_, hcapacity.trans h.capacity,
      hroom.trans h.room, ?_⟩
    · rw [hafter, lookup_erase, h.node?]
    · have hsize := h.size_le
      rw [hperm.length_eq, List.length_cons] at hsize
      rw [List.length_cons]
      omega

theorem read (id : SlotId) : Meets (Arena.read id) arena (registry.get id) := by
  have hread : Arena.read id arena =
      (MonadExcept.ofExcept (arena.get id) : ArenaM K V (Node K V)) arena := rfl
  rw [Registry.get]
  rcases hlookup : registry.nodes.lookup id with _ | node
  · obtain ⟨fault, hfault⟩ := Arena.get_of_dead ((h.node? id).trans hlookup)
    rw [hfault] at hread
    exact ⟨fault, arena, hread⟩
  · rw [Arena.get_eq_ok_iff.2 ((h.node? id).trans hlookup)] at hread
    exact ⟨arena, hread, occupied, h⟩

theorem modify (id : SlotId) (change : Node K V → Node K V) :
    Meets (Arena.modify id change) arena (registry.modify id change) := by
  rw [Registry.modify]
  rcases hlookup : registry.nodes.lookup id with _ | node
  · exact Arena.modify_of_dead ((h.node? id).trans hlookup) change
  · have hnode := (h.node? id).trans hlookup
    refine ⟨_, Arena.modify_of_node? hnode change, occupied, h.holds.write hnode _, fun other => ?_,
      h.capacity, h.room, h.size_le⟩
    rw [Arena.node?_write (Arena.lt_size_of_node? hnode), lookup_insert, h.node?]

theorem reset : Meets Arena.reset arena registry.reset := by
  rw [Registry.reset]
  by_cases hkeys : registry.nodes.keys = ∅
  · rw [if_pos hkeys]
    obtain ⟨after, hok, hholds, hcapacity, hroom⟩ :=
      h.holds.reset_eq_ok (h.keys_eq_empty_iff.1 hkeys)
    refine ⟨after, hok, [], hholds, fun id => ?_, hcapacity.trans h.capacity, hroom.trans h.room,
      Nat.zero_le _⟩
    -- neither storage nor the registry has a node any more
    have hlookup : registry.nodes.lookup id = none := by
      rw [Finmap.lookup_eq_none, ← Finmap.mem_keys, hkeys]
      exact Finset.notMem_empty id
    rcases hnode : after.node? id with _ | node
    · exact hlookup.symm
    · cases hholds.mem_occupied_iff.2 ⟨node, hnode⟩
  · rw [if_neg hkeys]
    have hlive : arena.live ≠ 0 := by
      rw [h.holds.live]
      exact fun hzero => hkeys (h.keys_eq_empty_iff.2 (List.eq_nil_of_length_eq_zero hzero))
    exact ⟨_, arena, if_neg hlive⟩

/-- Storage answers every use as the registry does. -/
theorem perform (action : Action K V) :
    Meets action.perform arena (registry.perform action) := by
  cases action with
  | alloc key value parent => exact (h.alloc key value parent).bind fun _ _ _ _ h => .pure h _
  | free link => exact .resolve link fun id => (h.free id).bind fun _ _ _ _ h => .pure h _
  | get link => exact .resolve link fun id => (h.read id).bind fun _ _ _ _ h => .pure h _
  | modify link change =>
    exact .resolve link fun id => (h.modify id change).bind fun _ _ _ _ h => .pure h _
  | reset => exact h.reset.bind fun _ _ _ _ h => .pure h _

/-- So it does one after the other. -/
theorem run (actions : List (Action K V)) :
    Meets (Arena.run actions) arena (Registry.run actions registry) := by
  induction actions generalizing registry arena occupied with
  | nil => exact .pure h _
  | cons action actions ih =>
    exact (h.perform action).bind fun _ _ _ _ h => (ih h).bind fun _ _ _ _ h => .pure h _

/-- Storage holds what is registered. -/
theorem describes : registry.Describes arena where
  node? := h.node?
  chain := h.holds.chain
  nodup := (List.nodup_append'.1 h.holds.nodup).2.1
  mem_vacated id := by
    have hdisjoint := (List.nodup_append'.1 h.holds.nodup).2.2
    constructor
    · intro hid
      have hmem : id ∈ occupied ++ registry.vacated := List.mem_append_right _ hid
      exact ⟨List.mem_range.1 (h.holds.partition.mem_iff.1 hmem), h.holds.chain.node?_eq_none hid⟩
    · rintro ⟨hlt, hnone⟩
      rcases List.mem_append.1 (h.holds.partition.mem_iff.2 (List.mem_range.2 hlt)) with hid | hid
      · obtain ⟨node, hnode⟩ := h.holds.mem_occupied_iff.1 hid
        cases hnone.symm.trans hnode
      · exact hid
  live := h.holds.live.trans h.card_keys.symm
  size := by rw [h.holds.size_eq, h.card_keys]
  size_le := h.holds.size_eq.trans_le h.size_le

/-- A new node goes into the slot vacated last or a new one, and is refused only for want of
both. -/
theorem admits (key : K) (value : V) (parent : Link) :
    ∃ answer after, Arena.alloc key value parent arena = .ok answer after ∧
      registry.Admits arena (Node.leaf key value parent) answer after := by
  have halloc := h.holds.alloc_eq key value parent
  have hsize := h.holds.size_eq
  have hexhausted : arena.slots.size < arena.capacity ∨
        Arena.grownCapacity arena.room arena.capacity (arena.slots.size + 1) ≤ arena.room.most →
      ((∃ cause, Arena.allot occupied.length registry.vacated arena.capacity arena.room =
        .error cause) ↔ registry.vacated = [] ∧ arena.slots.size = Arena.maxSlots) := by
    rw [hsize]
    exact Arena.allot_eq_error_iff h.size_le
  rcases hallot : Arena.allot occupied.length registry.vacated arena.capacity arena.room with
    cause | ⟨id, vacated, capacity⟩
  all_goals rw [hallot] at halloc hexhausted
  · refine ⟨.error cause, arena, halloc, ?_, ?_, ?_, fun _ _ => rfl, fun hroom => ?_⟩
    · rintro id ⟨⟩
    · rintro id ⟨⟩
    · rintro id ⟨⟩
    · exact iff_of_true ⟨cause, rfl⟩ ((hexhausted hroom).1 ⟨cause, rfl⟩)
  · obtain ⟨after, hok, hholds, hnode, -⟩ := halloc
    refine ⟨.ok id, after, hok, ?_, ?_, ?_, ?_, fun hroom => ?_⟩
    · rintro _ ⟨⟩
      rw [hsize]
      exact Arena.eq_headD_of_allot hallot
    · rintro _ ⟨⟩
      obtain ⟨hnone, hlt⟩ := h.holds.fresh hholds
      have hle := Arena.le_maxSlots_of_allot hallot h.size_le
      exact ⟨hnone, hlt.trans_le (hholds.size_eq.trans_le hle)⟩
    · rintro _ ⟨⟩
      exact hnode
    · rintro cause ⟨⟩
    · refine iff_of_false ?_ fun hfull => ?_
      · rintro ⟨cause, ⟨⟩⟩
      · obtain ⟨cause, hcause⟩ := (hexhausted hroom).2 hfull
        cases hcause

end Tracks

/-- A use that needs a node has an answer exactly if its link leads to one. -/
theorem perform_ne_none_iff {action : Action K V} {link : Link}
    (htarget : action.target? = some link) :
    registry.perform action ≠ none ↔
      ∃ id node, link = some id ∧ registry.nodes.lookup id = some node := by
  cases action with
  | alloc | reset => cases htarget
  | free | get | modify =>
    cases htarget
    rcases link with _ | id
    · simp [perform]
    · rcases hlookup : registry.nodes.lookup id with _ | node <;>
        simp [perform, free, get, modify, hlookup]

end Registry

/-- Whatever storage is used for, it answers as the registry does as long as the registry has an
answer, and otherwise runs into a fault. As long as it has answered, it holds what is registered:
the free list is finite, meets no slot twice, and runs through the vacant slots, the one vacated
last first. Storing one more node then gives the slot vacated last or a new one, or changes
nothing; with memory to grow, only if every slot number is taken. Looking at a node, changing it
and taking it out work exactly for the slots that hold a node. -/
theorem Arena.run_refines_registry {room : Room} {capacity : Nat} {arena : Arena K V}
    (hnew : Arena.withCapacity room capacity = .ok arena) (actions : List (Action K V)) :
    (Registry.run actions (.new arena.capacity room) = none →
      ∃ fault after, run actions arena = .error fault after) ∧
    ∀ outcomes registry,
      Registry.run actions (.new arena.capacity room) = some (outcomes, registry) →
      ∃ after, run actions arena = .ok outcomes after ∧
        registry.Describes after ∧
        (∀ key value parent, ∃ answer new, alloc key value parent after = .ok answer new ∧
          registry.Admits after
            { key, value, color := .red, parent, left := none, right := none } answer new) ∧
        ∀ (action : Action K V) link, action.target? = some link →
          ((∃ outcome new, action.perform after = .ok outcome new) ↔
            ∃ id node, link = some id ∧ registry.nodes.lookup id = some node) := by
  have hstart : (Registry.new arena.capacity room).Tracks arena [] := by
    obtain ⟨grown, rfl⟩ := exists_of_withCapacity_eq_ok hnew
    have hholds : ({ empty room with capacity := grown } : Arena K V).Holds [] [] :=
      ⟨rfl, List.forall_mem_nil _, List.Perm.refl _, rfl⟩
    exact ⟨hholds, fun _ => rfl, rfl, rfl, Nat.zero_le _⟩
  have hmeets := hstart.run actions
  constructor
  · intro hnone
    rw [hnone] at hmeets
    exact hmeets
  · intro outcomes registry hsome
    rw [hsome] at hmeets
    obtain ⟨after, hok, occupied, htracks⟩ := hmeets
    refine ⟨after, hok, htracks.describes, htracks.admits, fun action link htarget => ?_⟩
    rw [← registry.perform_ne_none_iff htarget]
    have hperform := htracks.perform action
    rcases hexpected : registry.perform action with _ | ⟨outcome, new⟩
    all_goals rw [hexpected] at hperform
    · obtain ⟨fault, new, hfault⟩ := hperform
      refine iff_of_false ?_ (absurd rfl)
      rintro ⟨outcome, other, hother⟩
      cases hfault.symm.trans hother
    · obtain ⟨new, hnew, -⟩ := hperform
      exact iff_of_true ⟨outcome, new, hnew⟩ (Option.some_ne_none _)

/-- Two slots are vacated and given out again, the one vacated last first. -/
theorem Arena.run_refines_registry_reused :
    ∃ registry,
      Registry.run
        [.alloc 1 10 none, .alloc 2 20 (some 0), .free (some 0), .free (some 1),
          .alloc 3 30 none, .modify (some 1) fun node => node.withValue 31, .get (some 1)]
        (.new 0 ⟨16, 24⟩) =
          some ([.allocated (.ok 0), .allocated (.ok 1), .freed (1, 10), .freed (2, 20),
            .allocated (.ok 1), .done, .found (Node.leaf 3 31 none)], registry) ∧
      ∃ after, run
        [.alloc 1 10 none, .alloc 2 20 (some 0), .free (some 0), .free (some 1),
          .alloc 3 30 none, .modify (some 1) fun node => node.withValue 31, .get (some 1)]
        (empty ⟨16, 24⟩ : Arena Nat Nat) =
          .ok [.allocated (.ok 0), .allocated (.ok 1), .freed (1, 10), .freed (2, 20),
            .allocated (.ok 1), .done, .found (Node.leaf 3 31 none)] after ∧
      registry.Describes after := by
  have hnew : withCapacity ⟨16, 24⟩ 0 = .ok (empty ⟨16, 24⟩ : Arena Nat Nat) := rfl
  refine ⟨_, rfl, ?_⟩
  exact ((run_refines_registry hnew _).2 _ _ (by rfl)).imp fun _ h => ⟨h.1, h.2.1⟩

end RedBlack
