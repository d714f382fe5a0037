import RedBlack.Proofs.Engine.Independence
import RedBlack.Proofs.Tree.Reflection

/-!
# Duality

A container whose comparator has its arguments exchanged is the container seen in a mirror, as
long as exchanging the arguments turns the answers around. The mirror exchanges the first entry
and the last one; storing an entry is the same on both sides. So a run of stores and pops shows
the same answers and events on both, and reflected trees (`Engine.reversal_reflects`).

Whether the answers are transitive plays no role. The removal of a key would not do: a node with
two children is always replaced by its successor.
-/

namespace RedBlack

open RedBlack.Tree (Frame Path)

variable {σ K V : Type}

/-- Exchanging the arguments turns each answer around, and leaves the same memory. -/
def Comparator.Turns (comparator : Comparator σ K) : Prop :=
  ∀ a b memory,
    comparator.reversed a b memory = ((comparator a b memory).1.swap, (comparator a b memory).2)

/-- An order that is turned around by exchanging its arguments. -/
theorem Comparator.turns_ofOrder {order : Order K} (h : ∀ a b, order b a = (order a b).swap) :
    (ofOrder order : Comparator σ K).Turns :=
  fun a b memory => congrArg (·, memory) (h a b)

/-! ## What has a reflection -/

/-- An entry goes into a container, or comes out of it at an end. -/
inductive Exchange (K V : Type) where
  /-- Store an entry. -/
  | put (key : K) (value : V) (policy : DuplicatePolicy)
  /-- Remove the outermost entry on one side. -/
  | pop (side : Side)

namespace Exchange

/-- The exchange as an operation. -/
def operation : Exchange K V → Operation Unit K V
  | put key value policy => .insert key value policy
  | pop side => .pop side

/-- The exchange seen in a mirror. -/
def reflect : Exchange K V → Exchange K V
  | put key value policy => put key value policy
  | pop side => pop side.opposite

end Exchange

/-- What there is to see in a mirror. -/
def Sight.reflect {τ : Type} (sight : Sight σ τ K V) : Sight σ τ K V :=
  { sight with tree := sight.tree.reflect }

namespace Snapshot

/-- The snapshot with a reflected tree. -/
def reflect (snapshot : Snapshot σ K V) : Snapshot σ K V :=
  snapshot.withTree snapshot.layout.tree.reflect

section

variable {comparator : Comparator σ K} (h : comparator.Turns) (key : K)
  (snapshot : Snapshot σ K V)

include h

/-- The reversed comparator leads a key to the reflected place. -/
theorem seek_reflect :
    snapshot.reflect.seek comparator.reversed key =
      let ((tree, path), after) := snapshot.seek comparator key
      ((tree.reflect, Path.reflect path), after.reflect) := by
  have hask : ∀ (cell : Cell K V) memory, comparator.reversed.probe key cell memory =
      ((comparator.probe key cell memory).1.swap, (comparator.probe key cell memory).2) :=
    fun cell memory => h key cell.key memory
  have hseek := Tree.seek_reflect hask snapshot.layout.tree [] snapshot.memory
  rw [Path.reflect, List.map_nil] at hseek
  simp only [seek, reflect, withTree, hseek]

omit h in
theorem insertAt_reflect (path : Path (Cell K V)) (value : V) :
    snapshot.reflect.insertAt key (Path.reflect path) value =
      ((snapshot.insertAt key path value).1, (snapshot.insertAt key path value).2.reflect) := by
  simp only [insertAt, Layout.insert, reflect, withTree, Tree.size_reflect]
  cases Arena.allot snapshot.layout.tree.size snapshot.layout.vacated snapshot.layout.capacity
      snapshot.layout.room with
  | error cause => rfl
  | ok slot =>
    obtain ⟨id, vacated, capacity⟩ := slot
    -- a single node is its own reflection
    have hrepair := Tree.repairRed_reflect (.node .red .nil (⟨id, key, value⟩ : Cell K V) .nil) path
    rw [Tree.reflect, Tree.reflect] at hrepair
    simp only [hrepair]
    rfl

theorem insert_reflect (value : V) (policy : DuplicatePolicy) :
    snapshot.reflect.insert comparator.reversed key value policy =
      ((snapshot.insert comparator key value policy).1,
        (snapshot.insert comparator key value policy).2.reflect) := by
  rw [insert, insert, seek_reflect h]
  rcases snapshot.seek comparator key with ⟨⟨_ | ⟨color, left, cell, right⟩, path⟩, after⟩
  · exact insertAt_reflect key after path value
  · cases policy with
    | overwrite =>
      have hunder := Tree.under_reflect (.node color left (cell.withValue value) right) path
      exact congrArg (fun tree => (Except.ok (some cell.value), after.withTree tree)) hunder
    | reject => rfl

omit h in
theorem pop_reflect (side : Side) :
    snapshot.reflect.pop side.opposite =
      ((snapshot.pop side).1, (snapshot.pop side).2.reflect) := by
  have hspine := Tree.spine_reflect side snapshot.layout.tree []
  rw [Path.reflect, List.map_nil] at hspine
  simp only [pop, reflect, withTree, hspine]
  rcases snapshot.layout.tree.spine side [] with _ | ⟨frame, path⟩
  · rfl
  · simp only [Path.reflect, List.map_cons, eraseFrame, erase, Layout.erase,
      Tree.eraseFrame_reflect]
    rfl

/-- An exchange and its reflection give the same answer. -/
theorem perform_reflect (exchange : Exchange K V) :
    snapshot.reflect.perform comparator.reversed exchange.reflect.operation =
      ((snapshot.perform comparator exchange.operation).1,
        (snapshot.perform comparator exchange.operation).2.reflect) := by
  cases exchange with
  | put key value policy =>
    simp only [Exchange.reflect, Exchange.operation, perform, insert_reflect h]
  | pop side => simp only [Exchange.reflect, Exchange.operation, perform, pop_reflect]

omit h in
theorem outline_reflect :
    snapshot.reflect.outline = snapshot.outline.withTree snapshot.outline.tree.reflect :=
  congrArg snapshot.outline.withTree (Tree.reflect_map Cell.entry snapshot.layout.tree).symm

theorem watch_reflect (exchange : Exchange K V) :
    snapshot.reflect.watch comparator.reversed exchange.reflect.operation =
      ((snapshot.watch comparator exchange.operation).1.reflect,
        (snapshot.watch comparator exchange.operation).2.reflect) := by
  rw [watch, watch, perform_reflect h]
  simp only [outline_reflect]
  -- neither an exchange nor its reflection asks for the capacity
  cases exchange <;> rfl

theorem run_watch_reflect (exchanges : List (Exchange K V)) :
    snapshot.reflect.run (watch comparator.reversed)
        ((exchanges.map Exchange.reflect).map Exchange.operation) =
      ((snapshot.run (watch comparator) (exchanges.map Exchange.operation)).1.map Sight.reflect,
        (snapshot.run (watch comparator) (exchanges.map Exchange.operation)).2.reflect) := by
  induction exchanges generalizing snapshot with
  | nil => rfl
  | cons exchange exchanges ih =>
    simp only [List.map_cons, run, watch_reflect h, ih]

end

end Snapshot

/-- A comparison in a circle, where each of three keys is less than the next. -/
def Order.circular : Order (Fin 3) :=
  fun a b => if a = b then .eq else if a + 1 = b then .lt else .gt

/-- Under an order that is turned around by exchanging its arguments, transitive or not, every
sequence of stores and pops on a new container shows the same as with the arguments exchanged
and the two ends exchanged, step by step: the same answers and events, the same values released,
and reflected trees. -/
theorem Engine.reversal_reflects {room : Room} {capacity : Nat} {arena : Arena K V}
    (hnew : Arena.withCapacity room capacity = .ok arena) {order : Order K}
    (horder : ∀ a b, order b a = (order a b).swap) (exchanges : List (Exchange K V)) :
    ∃ sights after after',
      run (watch (Comparator.ofOrder order)) (exchanges.map Exchange.operation)
          (.ofArena arena ()) = .ok sights after ∧
      run (watch (Comparator.ofOrder order).reversed)
          ((exchanges.map Exchange.reflect).map Exchange.operation) (.ofArena arena ()) =
        .ok (sights.map Sight.reflect) after' := by
  let comparator : Comparator Unit K := .ofOrder order
  have hturns : comparator.Turns := Comparator.turns_ofOrder horder
  let start : Snapshot Unit K V := .empty arena.capacity room ()
  obtain ⟨_, hrun, -⟩ := (Performs.run (Performs.watch comparator)
    (exchanges.map Exchange.operation) start).exists_eq_ok hnew
  obtain ⟨_, hrun', -⟩ := (Performs.run (Performs.watch comparator.reversed)
    ((exchanges.map Exchange.reflect).map Exchange.operation) start).exists_eq_ok hnew
  have hmirror := start.run_watch_reflect hturns exchanges
  -- the empty tree is its own reflection
  have hstart : start.reflect = start := rfl
  rw [hstart] at hmirror
  rw [hmirror] at hrun'
  exact ⟨_, _, _, hrun, hrun'⟩

/-- A run with a comparison that is not transitive. -/
theorem Engine.reversal_reflects_circular :
    ∃ sights after after',
      run (watch (Comparator.ofOrder Order.circular))
          ([.put 0 10 .reject, .put 1 20 .overwrite, .put 2 30 .reject, .put 1 40 .overwrite,
            .pop .left, .put 0 50 .reject, .pop .right].map Exchange.operation)
          (.ofArena (Arena.empty ⟨8, 24⟩ : Arena (Fin 3) Nat) ()) = .ok sights after ∧
      run (watch (Comparator.ofOrder Order.circular).reversed)
          ([.put 0 10 .reject, .put 1 20 .overwrite, .put 2 30 .reject, .put 1 40 .overwrite,
            .pop .right, .put 0 50 .reject, .pop .left].map Exchange.operation)
          (.ofArena (Arena.empty ⟨8, 24⟩ : Arena (Fin 3) Nat) ()) =
        .ok (sights.map Sight.reflect) after' :=
  reversal_reflects (rfl : Arena.withCapacity ⟨8, 24⟩ 0 = .ok (Arena.empty ⟨8, 24⟩)) (by decide)
    [.put 0 10 .reject, .put 1 20 .overwrite, .put 2 30 .reject, .put 1 40 .overwrite, .pop .left,
      .put 0 50 .reject, .pop .right]

end RedBlack
