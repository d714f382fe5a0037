import RedBlack.Arena.Basic
import RedBlack.Error

/-!
# Bare Storage

A session on node storage alone, without a tree. Nodes are named by handles: the index of
the successful allocation that made them. A handle outlives its node, so it may name a
vacated slot, or a node that was given the slot later.
-/

namespace RedBlack

namespace Slots

/-- A name for a node: the number of an allocation, or `none` for no node at all. -/
abbrev Handle := Option Nat

/-- An action on bare storage. -/
inductive Action where
  /-- Store a node. -/
  | alloc (key value : Int64) (parent : Handle)
  /-- Vacate a slot. -/
  | free (handle : Handle)
  /-- Look at a node. -/
  | get (handle : Handle)
  /-- Replace the value of a node. -/
  | set (handle : Handle) (value : Int64)
  /-- Forget all slots. -/
  | reset
  /-- The number of slots that fit without growing. -/
  | capacity

/-- The reply to an action. -/
inductive Reply where
  /-- There is nothing to say. -/
  | done
  /-- A number of slots, or of a slot. -/
  | number (answer : Nat)
  /-- A value. -/
  | value (answer : Int64)
  /-- A key and a value. -/
  | entry (key value : Int64)
  /-- A whole node. -/
  | node (node : Node Int64 Int64)
  /-- Storage could not grow. -/
  | refused (error : Error)
  /-- The action ran into a fault. -/
  | stopped (fault : Fault)

/-- How the session goes on after an action. -/
inductive Outcome where
  /-- With the next action; `live` is the number of live nodes. -/
  | answered (reply : Reply) (live : Nat)
  /-- Not at all. -/
  | broken (fault : Fault)
  /-- Not at all, since a handle names no allocation. -/
  | unknownHandle

/-- The state of the session. -/
structure State where
  /-- The storage. -/
  arena : Arena Int64 Int64
  /-- The slots that the handles name. -/
  handles : Array SlotId := #[]

/-- The link that a handle names, if there was such an allocation. -/
def State.link? (state : State) : Handle → Option Link
  | none => some none
  | some handle => (state.handles[handle]?).map some

/-- The slot at the end of a link. -/
def slotAt (link : Link) : ArenaM Int64 Int64 SlotId :=
  MonadExcept.ofExcept link.resolve

/-- Vacate the slot at the end of a link. -/
def freeAt (link : Link) : ArenaM Int64 Int64 (Int64 × Int64) := do
  Arena.free (← slotAt link)

/-- The node at the end of a link. -/
def getAt (link : Link) : ArenaM Int64 Int64 (Node Int64 Int64) := do
  let id ← slotAt link
  MonadExcept.ofExcept ((← get).get id)

/-- Replace the value of the node at the end of a link. Gives the old one. -/
def setAt (link : Link) (value : Int64) : ArenaM Int64 Int64 Int64 := do
  let { value := old, .. } ← getAt link
  Arena.modify (← slotAt link) fun node => node.withValue value
  return old

/-- Run an action whose faults are answered like any other outcome. -/
def answer {α : Type} (reply : α → Reply) (action : ArenaM Int64 Int64 α) (state : State) :
    Outcome × State :=
  match action state.arena with
  | .ok result arena => (.answered (reply result) arena.live, { state with arena })
  | .error fault arena => (.answered (.stopped fault) arena.live, { state with arena })

/-- Perform an action. A fault while vacating a slot ends the session. -/
def step (state : State) : Action → Outcome × State
  | .alloc key value parent =>
    match state.link? parent with
    | none => (.unknownHandle, state)
    | some parent =>
      match Arena.alloc key value parent state.arena with
      | .ok (.ok id) arena =>
        (.answered (.number id) arena.live, { arena, handles := state.handles.push id })
      | .ok (.error _) arena =>
        (.answered (.refused .allocationFailure) arena.live, { state with arena })
      | .error fault arena => (.answered (.stopped fault) arena.live, { state with arena })
  | .free handle =>
    match state.link? handle with
    | none => (.unknownHandle, state)
    | some link =>
      match freeAt link state.arena with
      | .ok (key, value) arena => (.answered (.entry key value) arena.live, { state with arena })
      | .error fault arena => (.broken fault, { state with arena })
  | .get handle =>
    match state.link? handle with
    | none => (.unknownHandle, state)
    | some link => answer .node (getAt link) state
  | .set handle value =>
    match state.link? handle with
    | none => (.unknownHandle, state)
    | some link => answer .value (setAt link value) state
  | .reset => answer (fun _ => .done) Arena.reset state
  | .capacity => (.answered (.number state.arena.capacity) state.arena.live, state)

/-- Perform actions until one ends the session. -/
def run (state : State) : List Action → List Outcome
  | [] => []
  | action :: actions =>
    match step state action with
    | (.answered reply live, state) => .answered reply live :: run state actions
    | (outcome, _) => [outcome]

/-- A session on storage with room for a number of slots. -/
def start (room : Room) (capacity : Nat) : Except Error State :=
  match Arena.withCapacity room capacity with
  | .ok arena => .ok { arena }
  | .error _ => .error .allocationFailure

end Slots

end RedBlack
