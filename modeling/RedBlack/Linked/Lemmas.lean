import RedBlack.Arena.Lemmas
import RedBlack.Linked.Basic

/-!
# Lemmas on Linked Trees

The actions that read or write one node succeed on a live slot, and writing changes nothing
but the storage.
-/

namespace RedBlack

namespace LinkedTree

variable {K V : Type} {tree : LinkedTree K V} {id : SlotId} {stored : Node K V}

/-- After an action that succeeds, the next one goes on from its answer and its tree. -/
theorem bind_of_ok {α β : Type} {action : LinkM K V α} {next : α → LinkM K V β} {answer : α}
    {after : LinkedTree K V} (h : action tree = .ok answer after) :
    (action >>= next) tree = next answer after := by
  simp [bind, EStateM.bind, h]

/-- Put a node into a slot. -/
def write (tree : LinkedTree K V) (id : SlotId) (node : Node K V) : LinkedTree K V :=
  { tree with arena := tree.arena.write id node }

/-- Reading a live node gives it and changes nothing. -/
theorem node_of_node? (h : tree.arena.node? id = some stored) :
    node id tree = .ok stored tree := by
  simp [node, inspect, Arena.get_eq_ok_iff.2 h]

/-- Changing a live node writes it back changed. -/
theorem modifyNode_of_node? (h : tree.arena.node? id = some stored)
    (change : Node K V → Node K V) :
    modifyNode id change tree = .ok () (tree.write id (change stored)) := by
  simp [modifyNode, onArena, Arena.modify_of_node? h, write]

end LinkedTree

end RedBlack
