import RedBlack.Proofs.Engine.Operation

/-!
# Runs of Containers

What holds after every finite sequence of operations on a container that starts without
entries, whatever its comparator answers: no operation runs into a fault
(`Engine.run_without_fault`), and the links form a tree that follows the colouring rules, lies
in exactly the occupied slots, and has as many nodes as are counted
(`Engine.run_keeps_invariants`).

The sequences are arbitrary, so what holds after a sequence holds after each of its
operations, and what holds after a traversal holds after each use of its cursor.
-/

namespace RedBlack

variable {σ τ K V : Type}

/-- The context of a new container. -/
def Context.ofArena (arena : Arena K V) (memory : σ) : Context σ K V :=
  { tree := LinkedTree.ofArena arena, memory }

/-- The snapshot of a new container. -/
def Snapshot.empty (capacity : Nat) (room : Room) (memory : σ) : Snapshot σ K V :=
  { layout := { tree := .nil, vacated := [], capacity, room }, memory }

namespace Engine

variable {room : Room} {capacity : Nat} {arena : Arena K V}

/-- What an action performs on the snapshot of a new container, it does on that container. -/
theorem Performs.exists_eq_ok {α : Type} {action : EngineM σ K V α} {after : Snapshot σ K V}
    {answer : α} {memory : σ}
    (h : Performs action (.empty arena.capacity room memory) after answer)
    (hnew : Arena.withCapacity room capacity = .ok arena) :
    ∃ tree : LinkedTree K V,
      action (.ofArena arena memory) = .ok answer (after.around tree) ∧
        tree.LaidOut after.layout :=
  h (LinkedTree.ofArena arena) (LinkedTree.laidOut_ofArena hnew)

/-- No sequence of operations on a new container runs into a fault, whatever the comparator
answers. -/
theorem run_without_fault (hnew : Arena.withCapacity room capacity = .ok arena)
    (comparator : Comparator σ K) (memory : σ) (operations : List (Operation τ K V)) :
    ∃ answers context,
      run (Operation.perform comparator) operations (.ofArena arena memory) =
        .ok answers context := by
  have hrun := Performs.run (Performs.operation comparator) operations
    (.empty arena.capacity room memory)
  obtain ⟨tree, hok, -⟩ := hrun.exists_eq_ok hnew
  exact ⟨_, _, hok⟩

/-- A run with a comparator that changes its mind, an iterator and a cursor. -/
theorem run_without_fault_flipping :
    ∃ answers context,
      run (Operation.perform (Comparator.flipping 3 compare))
        [.insert 1 10 .overwrite, .insert 2 20 .reject, .insert 3 30 .overwrite,
          .insert 1 40 .reject, .iterate .entries [.next, .nth 1, .next],
          .traverse [.next, .remove, .next, .remove],
          .retain (fun _ value visits => ((false, value), visits + 1)) 0, .pop .left, .copy, .clear]
        (.ofArena (Arena.empty ⟨8, 24⟩ : Arena Nat Nat) 0) = .ok answers context :=
  run_without_fault (rfl : Arena.withCapacity ⟨8, 24⟩ 0 = .ok (Arena.empty ⟨8, 24⟩)) _ _ _

/-- After every sequence of operations on a new container, whatever the comparator answers, the
links from the root form a tree in which every parent link names the owner of the node, which
follows the colouring rules, and whose nodes are as many as are counted and lie in exactly
the occupied slots. -/
theorem run_keeps_invariants (hnew : Arena.withCapacity room capacity = .ok arena)
    (comparator : Comparator σ K) (memory : σ) (operations : List (Operation τ K V)) :
    ∃ answers context tree blackHeight,
      run (Operation.perform comparator) operations (.ofArena arena memory) =
        .ok answers context ∧
      context.tree.Shows tree ∧
      tree.slots.Nodup ∧
      tree.Balanced .black blackHeight ∧
      context.tree.size = tree.size ∧
      context.tree.arena.live = tree.size ∧
      ∀ id, id ∈ tree.slots ↔ ∃ node, context.tree.arena.node? id = some node := by
  have hrun := Performs.run (Performs.operation comparator) operations
    (.empty arena.capacity room memory)
  obtain ⟨tree, hok, h⟩ := hrun.exists_eq_ok hnew
  obtain ⟨blackHeight, hbalanced⟩ := h.balanced
  have hlive := h.storage.live
  rw [Tree.length_slots] at hlive
  exact ⟨_, _, _, blackHeight, hok, h.shows, h.depicts.nodup, hbalanced, h.size, hlive,
    fun id => h.storage.mem_occupied_iff⟩

/-- A run with a comparator that calls every key smaller than every other. -/
theorem run_keeps_invariants_constant :
    ∃ answers context tree blackHeight,
      run (Operation.perform (Comparator.ofOrder (Order.constant .lt)))
        [.insert 1 10 .overwrite, .insert 1 20 .reject, .insert 2 30 .overwrite, .pop .right,
          .traverse [.next, .remove], .copy, (.remove 2 : Operation Unit Nat Nat)]
        (.ofArena (Arena.empty ⟨8, 24⟩ : Arena Nat Nat) ()) = .ok answers context ∧
      context.tree.Shows tree ∧
      tree.slots.Nodup ∧
      tree.Balanced .black blackHeight ∧
      context.tree.size = tree.size ∧
      context.tree.arena.live = tree.size ∧
      ∀ id, id ∈ tree.slots ↔ ∃ node, context.tree.arena.node? id = some node :=
  run_keeps_invariants (rfl : Arena.withCapacity ⟨8, 24⟩ 0 = .ok (Arena.empty ⟨8, 24⟩)) _ _ _

end Engine

end RedBlack
