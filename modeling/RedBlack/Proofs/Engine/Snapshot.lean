import RedBlack.Engine.Basic
import RedBlack.Proofs.Linked.Layout

/-!
# Snapshots

A snapshot is the context of an action with the links of its tree followed. A rule
`Performs action before after answer` says what an action of the engine does in terms of
snapshots: in every context with the snapshot `before` it gives `answer`, without a fault, and
leaves a context with the snapshot `after`. The snapshot before determines everything, so two
contexts with the same snapshot cannot be told apart.

The rules in this module are those for the parts from which the engine is built: acting on
the linked tree, reporting, releasing, and asking the comparator.
-/

namespace RedBlack

variable {σ K V α β : Type}

/-- A context with the links of its tree followed. -/
structure Snapshot (σ K V : Type) where
  /-- The layout of the tree. -/
  layout : Layout K V
  /-- What the comparator remembers. -/
  memory : σ
  /-- The events so far. -/
  trace : Array Event := #[]
  /-- The values that the engine itself let go of so far. -/
  released : Array V := #[]

namespace Snapshot

/-- The context around a linked tree. -/
def around (snapshot : Snapshot σ K V) (tree : LinkedTree K V) : Context σ K V :=
  { tree, memory := snapshot.memory, trace := snapshot.trace, released := snapshot.released }

/-- The snapshot with another tree of cells. -/
def withTree (snapshot : Snapshot σ K V) (tree : Tree (Cell K V)) : Snapshot σ K V :=
  { snapshot with layout := { snapshot.layout with tree } }

/-- The snapshot after reporting events. -/
def report (snapshot : Snapshot σ K V) (events : List Event) : Snapshot σ K V :=
  { snapshot with trace := snapshot.trace ++ events }

/-- The snapshot after releasing values. -/
def release (snapshot : Snapshot σ K V) (values : List V) : Snapshot σ K V :=
  { snapshot with released := snapshot.released ++ values }

end Snapshot

namespace Engine

/-- The action gives `answer` in every context with the snapshot `before`, and leaves one with
the snapshot `after`. -/
def Performs (action : EngineM σ K V α) (before after : Snapshot σ K V) (answer : α) : Prop :=
  ∀ tree : LinkedTree K V, tree.LaidOut before.layout →
    ∃ new, action (before.around tree) = .ok answer (after.around new) ∧
      new.LaidOut after.layout

/-- After an action that succeeds, the next one goes on from its answer and its context. -/
theorem bind_of_ok {action : EngineM σ K V α} {next : α → EngineM σ K V β} {answer : α}
    {context after : Context σ K V} (h : action context = .ok answer after) :
    (action >>= next) context = next answer after := by
  simp only [bind, EStateM.bind, h]

namespace Performs

variable {before mid after : Snapshot σ K V}

theorem pure (answer : α) (snapshot : Snapshot σ K V) :
    Performs (Pure.pure answer : EngineM σ K V α) snapshot snapshot answer :=
  fun tree h => ⟨tree, rfl, h⟩

/-- Actions are followed one after the other. -/
theorem bind {action : EngineM σ K V α} {next : α → EngineM σ K V β} {a : α} {b : β}
    (h : Performs action before mid a) (hnext : Performs (next a) mid after b) :
    Performs (action >>= next) before after b := by
  intro tree hlaid
  obtain ⟨between, haction, hbetween⟩ := h tree hlaid
  obtain ⟨new, hrest, hnew⟩ := hnext between hbetween
  exact ⟨new, (bind_of_ok haction).trans hrest, hnew⟩

/-- The answer of an action can be changed afterwards. -/
theorem map {action : EngineM σ K V α} {a : α} (h : Performs action before after a)
    (f : α → β) : Performs (do return f (← action)) before after (f a) :=
  h.bind (.pure (f a) after)

/-- Acting on the linked tree alone changes the layout alone. -/
theorem onTree {action : LinkM K V α} {new : Layout K V} {answer : α}
    (h : LinkedTree.Reforms action before.layout new answer) :
    Performs (Engine.onTree action) before { before with layout := new } answer := by
  intro tree hlaid
  obtain ⟨tree', haction, hnew⟩ := h tree hlaid
  refine ⟨tree', ?_, hnew⟩
  simp only [Engine.onTree, Snapshot.around, haction]

/-- A question about the tree leaves everything as it is. -/
theorem inspect {question : LinkedTree K V → Except Fault α} {answer : α}
    (h : ∀ tree : LinkedTree K V, tree.LaidOut before.layout → question tree = .ok answer) :
    Performs (Engine.inspect question) before before answer :=
  onTree (.inspect h)

theorem report (events : List Event) (snapshot : Snapshot σ K V) :
    Performs (Engine.report events) snapshot (snapshot.report events) () :=
  fun tree h => ⟨tree, rfl, h⟩

theorem release (values : List V) (snapshot : Snapshot σ K V) :
    Performs (Engine.release values) snapshot (snapshot.release values) () :=
  fun tree h => ⟨tree, rfl, h⟩

/-- Acting on the linked tree and reporting the events of that. -/
theorem onTreeReporting {action : LinkM K V (α × List Event)} {new : Layout K V}
    {answer : α × List Event} (h : LinkedTree.Reforms action before.layout new answer) :
    Performs (Engine.onTreeReporting action) before
      (Snapshot.report { before with layout := new } answer.2) answer.1 :=
  (onTree h).bind ((report answer.2 _).bind (.pure answer.1 _))

/-- Asking the comparator changes its memory alone. -/
theorem ask {comparator : Comparator σ K} {a b : K} {answer : Ordering} {memory : σ}
    (h : comparator a b before.memory = (answer, memory)) :
    Performs (Engine.ask comparator a b) before { before with memory } answer := by
  intro tree hlaid
  refine ⟨tree, ?_, hlaid⟩
  simp only [Engine.ask, Snapshot.around, h]

/-- The budget exceeds the number of nodes. -/
theorem budget {next : Nat → EngineM σ K V α} {answer : α}
    (h : ∀ steps, before.layout.tree.size < steps → Performs (next steps) before after answer) :
    Performs (Engine.onTree LinkedTree.budget >>= next) before after answer := by
  intro tree hlaid
  have hbudget : (Engine.onTree LinkedTree.budget : EngineM σ K V Nat) (before.around tree) =
      .ok tree.arena.budget (before.around tree) := rfl
  rw [bind_of_ok hbudget]
  exact h _ hlaid.size_lt_budget tree hlaid

end Performs

end Engine

end RedBlack
