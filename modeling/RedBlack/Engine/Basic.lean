import RedBlack.Comparator
import RedBlack.Error
import RedBlack.Linked.Basic

/-!
# The Engine

The actions of a container: they work on its linked tree, ask its comparator, report
events, and release the values that nobody takes back.
-/

namespace RedBlack

/-- Everything that an action of the engine works on. -/
structure Context (σ K V : Type) where
  /-- The tree of the container. -/
  tree : LinkedTree K V
  /-- What the comparator remembers. -/
  memory : σ
  /-- The events so far. -/
  trace : Array Event := #[]
  /-- The values that the engine itself let go of so far. -/
  released : Array V := #[]

/-- An action of the engine. -/
abbrev EngineM (σ K V : Type) := EStateM Fault (Context σ K V)

namespace Engine

variable {σ K V : Type}

/-- Act on the linked tree alone. -/
def onTree {α : Type} (action : LinkM K V α) : EngineM σ K V α :=
  fun { tree, memory, trace, released } =>
    match action tree with
    | .ok answer tree => .ok answer { tree, memory, trace, released }
    | .error fault tree => .error fault { tree, memory, trace, released }

/-- Answer a question about the tree and leave it as it is. -/
def inspect {α : Type} (question : LinkedTree K V → Except Fault α) : EngineM σ K V α :=
  onTree (LinkedTree.inspect question)

/-- Report events in order. -/
def report (events : List Event) : EngineM σ K V Unit :=
  fun context => .ok () { context with trace := context.trace ++ events }

/-- Let go of values, in order, that stay with nobody. -/
def release (values : List V) : EngineM σ K V Unit :=
  fun context => .ok () { context with released := context.released ++ values }

/-- Act on the linked tree and report the events that the action gives beside its answer. -/
def onTreeReporting {α : Type} (action : LinkM K V (α × List Event)) : EngineM σ K V α := do
  let (answer, events) ← onTree action
  report events
  return answer

/-- Ask the comparator. -/
def ask (comparator : Comparator σ K) (a b : K) : EngineM σ K V Ordering :=
  fun { tree, memory, trace, released } =>
    let (answer, memory) := comparator a b memory
    .ok answer { tree, memory, trace, released }

end Engine

end RedBlack
