/-!
# Events

What the engine reports while it works: the rebalancing steps, the rebuilding of a
cursor, construction, teardown, and refused storage. The trace of an operation is the
list of its events in order.
-/

namespace RedBlack

/-- Why node storage could not grow. -/
inductive Shortage where
  /-- Some slot would get the number that stands for the missing link, or a larger one. -/
  | indexSpace
  /-- The slots do not fit in memory. -/
  | memory
deriving DecidableEq

/-- One reported step. -/
inductive Event where
  /-- Insertion: parent and uncle are red, so they turn black and the grandparent red. -/
  | recolored
  /-- Insertion: an inner grandchild is rotated to the outside. -/
  | straightened
  /-- Insertion: the grandparent is rotated away from an outer red grandchild. -/
  | grandparentRotated
  /-- Removal: a red sibling is rotated away, which leaves a black one. -/
  | siblingRotated
  /-- Removal: a black sibling without red children turns red and its parent is now short. -/
  | deficiencyPushed
  /-- Removal: a red near nephew is rotated to the far side. -/
  | nearNephew
  /-- Removal: a red far nephew pays for the missing black node. -/
  | farNephew
  /-- A cursor rebuilt its stack after a removal; `depth` is the size of the new one. -/
  | resynchronized (depth : Nat)
  /-- A container was built from a configuration. -/
  | constructed (capacity : Nat)
  /-- A non-empty tree was torn down. -/
  | cleared (released : Nat)
  /-- Storage for `additional` more slots was refused. -/
  | refused (cause : Shortage) (additional : Nat)
deriving DecidableEq

/-- How much attention an event deserves. -/
inductive Level where
  /-- A step of the algorithm. -/
  | trace
  /-- A stage in the life of a container. -/
  | debug
  /-- Something that went wrong outside the library. -/
  | warn
deriving DecidableEq

/-- The printed name of a level. -/
def Level.label : Level → String
  | trace => "TRACE"
  | debug => "DEBUG"
  | warn => "WARN"

namespace Event

/-- The level at which an event is reported. -/
def level : Event → Level
  | constructed _ | cleared _ => .debug
  | refused _ _ => .warn
  | _ => .trace

/-- What happened, with the field of the event, if it has one, after the sentence. -/
def message : Event → String
  | recolored => "insert fixup: recolor under red uncle"
  | straightened => "insert fixup: straighten zig-zag"
  | grandparentRotated => "insert fixup: rotate grandparent"
  | siblingRotated => "delete fixup: rotate red sibling away"
  | deficiencyPushed => "delete fixup: push deficiency up"
  | nearNephew => "delete fixup: near nephew red"
  | farNephew => "delete fixup: far nephew red"
  | resynchronized depth => s!"cursor resynchronized after removal depth={depth}"
  | constructed capacity => s!"tree constructed capacity={capacity}"
  | cleared released => s!"tree cleared released={released}"
  | refused .indexSpace additional => s!"node index space exhausted additional={additional}"
  | refused .memory additional => s!"node storage reservation failed additional={additional}"

/-- The line of a log that reports the event. -/
def line (event : Event) : String :=
  s!"{event.level.label} {event.message}"

end Event

end RedBlack
