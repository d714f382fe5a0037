import RedBlack.Engine.Cursor

/-!
# Containers

How a container comes to be and ends, and what an ordered map and an ordered set add to
the engine they share. A map stores a value beside each key; a set stores none, so it is
a map to `Unit` that refuses duplicates instead of overwriting them. Whatever is not
listed under `OrderedMap` or `OrderedSet` is the same for both and is the engine's.
-/

namespace RedBlack

/-! ## Configuration -/

/-- The parameters of a container. -/
structure Config (C : Type) where
  /-- How keys are ordered; a container cannot do without. -/
  comparator : Option C := none
  /-- The number of nodes to reserve in advance. -/
  capacity : Nat := 0

namespace Config

variable {C K V : Type}

/-- The configuration with a comparator and nothing reserved. -/
def ofComparator (comparator : C) : Config C :=
  { comparator := some comparator }

/-- The configuration with another capacity. -/
def withCapacity (config : Config C) (capacity : Nat) : Config C :=
  { config with capacity }

/-- A configuration, and after it the same with each of some capacities. -/
def variants (config : Config C) (capacities : List Nat) : List (Config C) :=
  config :: capacities.map config.withCapacity

/-- The printed form of a configuration, given that of its comparator. -/
def text (describe : C → String) (config : Config C) : String :=
  let comparator := match config.comparator with
    | none => "None"
    | some comparator => "Some(" ++ describe comparator ++ ")"
  "TreeConfig \x7b comparator: " ++ comparator ++ ", capacity: " ++ toString config.capacity ++
    " \x7d"

/-- Build an empty container: its comparator and its tree. The key type is checked first,
then the comparator, then the capacity against the room in memory. -/
def build (config : Config C) (zeroSizedKey : Bool) (room : Room) :
    Except Error (C × LinkedTree K V) × List Event :=
  if zeroSizedKey then (.error .zeroSizedKey, [])
  else match config.comparator with
    | none => (.error .missingComparator, [])
    | some comparator =>
      match Arena.withCapacity room config.capacity with
      | .error cause => (.error .allocationFailure, [.refused cause config.capacity])
      | .ok arena =>
        (.ok (comparator, LinkedTree.ofArena arena), [.constructed config.capacity])

end Config

/-- An order that a configuration can name. -/
inductive NamedOrder where
  /-- The natural order of the keys. -/
  | natural
  /-- The reverse of another order. -/
  | reversed (order : NamedOrder)
deriving DecidableEq

namespace NamedOrder

/-- The printed name of an order. -/
def text : NamedOrder → String
  | natural => "NaturalOrder"
  | reversed order => "Reversed(" ++ order.text ++ ")"

end NamedOrder

variable {σ K V : Type}

/-! ## Maps -/

namespace OrderedMap

/-- Store a value under a key. Gives the value it replaced; the stored key stays. -/
def insert (comparator : Comparator σ K) (key : K) (value : V) :
    EngineM σ K V (Except Error (Option V)) :=
  Engine.insert comparator key value .overwrite

/-- Remove the entry stored under a key. -/
def removeEntry (comparator : Comparator σ K) (key : K) :
    EngineM σ K V (Except Error (K × V)) :=
  Engine.remove comparator key

/-- Remove the entry stored under a key and give its value. -/
def remove (comparator : Comparator σ K) (key : K) : EngineM σ K V (Except Error V) := do
  return (← Engine.remove comparator key).map Prod.snd

end OrderedMap

/-! ## Sets -/

namespace OrderedSet

/-- Add a key that is not stored yet. -/
def insert (comparator : Comparator σ K) (key : K) : EngineM σ K Unit (Except Error Unit) := do
  return (← Engine.insert comparator key () .reject).map fun _ => ()

/-- Remove a key. -/
def remove (comparator : Comparator σ K) (key : K) : EngineM σ K Unit (Except Error Unit) := do
  return (← Engine.remove comparator key).map fun _ => ()

/-- Remove a key and give the stored one. -/
def take (comparator : Comparator σ K) (key : K) : EngineM σ K Unit (Except Error K) := do
  return (← Engine.remove comparator key).map Prod.fst

end OrderedSet

end RedBlack
