import RedBlack.Proofs.Engine.Runs

/-!
# Reachable Trees

The trees that a container can hold: a new one is empty, and every operation leads from one to
the next, whatever the comparator answers (`LinkedTree.Reachable`). All of them are laid out in
order (`Reachable.exists_laidOut`), so what an action performs in terms of snapshots it does on
every reachable tree (`Performs.of_context`), also in the middle of a traversal (`exists_place`).
-/

namespace RedBlack

variable {σ τ K V : Type}

/-- The trees that operations on a new container can lead to. The comparator may be another one
in each operation, and the memory that it finds is arbitrary. -/
inductive LinkedTree.Reachable : LinkedTree K V → Prop
  /-- The tree of a new container. -/
  | new {room : Room} {capacity : Nat} {arena : Arena K V} :
      Arena.withCapacity room capacity = .ok arena → Reachable (ofArena arena)
  /-- The tree after an operation. -/
  | step {σ τ : Type} {context after : Context σ K V} {comparator : Comparator σ K}
      {operation : Operation τ K V} {answer : Answer τ K V} :
      Reachable context.tree → operation.perform comparator context = .ok answer after →
        Reachable after.tree

/-- The context with the links of its tree followed. -/
def Context.snapshot (context : Context σ K V) (layout : Layout K V) : Snapshot σ K V :=
  { layout, memory := context.memory, trace := context.trace, released := context.released }

/-- What an action performs on a snapshot, it does in the context. -/
theorem Engine.Performs.of_context {α : Type} {action : EngineM σ K V α} {answer : α}
    {context : Context σ K V} {layout : Layout K V} {after : Snapshot σ K V}
    (h : Performs action (context.snapshot layout) after answer)
    (hlaid : context.tree.LaidOut layout) :
    ∃ tree, action context = .ok answer (after.around tree) ∧ tree.LaidOut after.layout :=
  h context.tree hlaid

/-- Wherever a cursor has got to, it stands at a place of the tree. -/
theorem Engine.exists_place {context : Context σ K V} {layout : Layout K V}
    (hlaid : context.tree.LaidOut layout) (comparator : Comparator σ K)
    (moves : List (Cursor.Move V)) :
    ∃ outcomes place between reached,
      (Cursor.start >>= Cursor.moves comparator moves) context =
          .ok (outcomes, Place.cursor place) between ∧
        between.tree.LaidOut reached ∧ Tree.nil.under place.path = reached.tree := by
  have hstart := Place.nil_under_start layout.tree
  have hmoves : Performs (Cursor.start >>= Cursor.moves comparator moves)
      (context.snapshot layout) _ _ :=
    (Performs.start _).bind (.moves comparator hstart moves)
  obtain ⟨tree, hok, hreached⟩ := hmoves.of_context hlaid
  exact ⟨_, _, _, _, hok, hreached, Snapshot.nil_under_moves comparator hstart moves⟩

/-- Every reachable tree is laid out in order. -/
theorem LinkedTree.Reachable.exists_laidOut {linked : LinkedTree K V} (h : linked.Reachable) :
    ∃ layout, linked.LaidOut layout := by
  induction h with
  | new hnew => exact ⟨_, laidOut_ofArena hnew⟩
  | step _ hperform ih =>
    obtain ⟨layout, hlaid⟩ := ih
    obtain ⟨tree, hok, hafter⟩ :=
      (Engine.Performs.operation _ _ _).of_context hlaid
    cases hperform.symm.trans hok
    exact ⟨_, hafter⟩

/-- Operations one after the other lead on from a reachable tree. -/
theorem LinkedTree.Reachable.run {comparator : Comparator σ K} {context after : Context σ K V}
    {operations : List (Operation τ K V)} {answers : List (Answer τ K V)}
    (h : context.tree.Reachable)
    (hrun : Engine.run (Operation.perform comparator) operations context = .ok answers after) :
    after.tree.Reachable := by
  induction operations generalizing context answers with
  | nil =>
    cases hrun
    exact h
  | cons operation operations ih =>
    obtain ⟨layout, hlaid⟩ := h.exists_laidOut
    obtain ⟨tree, hperform, hbetween⟩ :=
      (Engine.Performs.operation comparator operation _).of_context hlaid
    obtain ⟨_, hrest, -⟩ := Engine.Performs.run (Engine.Performs.operation comparator)
      operations _ tree hbetween
    have hcons := (Engine.bind_of_ok hperform).symm.trans hrun
    have hfirst : (Snapshot.around _ tree).tree.Reachable := h.step hperform
    cases (Engine.bind_of_ok hrest).symm.trans hcons
    exact ih hfirst hrest

/-- Every sequence of operations on a new container leads to a reachable tree, which has the
shape that can be computed without links. -/
theorem Engine.exists_reachable_run {room : Room} {capacity : Nat} {arena : Arena K V}
    (hnew : Arena.withCapacity room capacity = .ok arena) (comparator : Comparator σ K)
    (memory : σ) (operations : List (Operation τ K V)) :
    ∃ answers context,
      run (Operation.perform comparator) operations (.ofArena arena memory) =
        .ok answers context ∧
      context.tree.Reachable ∧
      context.tree.toTree =
        .ok ((Snapshot.empty arena.capacity room memory).run (Snapshot.perform comparator)
          operations).2.layout.tree.entries := by
  obtain ⟨_, hrun, hlaid⟩ :=
    (Performs.run (.operation comparator) operations _).exists_eq_ok hnew
  exact ⟨_, _, hrun, (LinkedTree.Reachable.new hnew).run hrun, hlaid.toTree_eq_ok⟩

end RedBlack
