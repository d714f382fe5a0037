import RedBlack.Session.Perform

/-!
# Sessions

A session holds containers of one kind in numbered slots, all with the same comparator,
and carries out commands on the current one. Each command is answered with a report of
everything that it did.
-/

namespace RedBlack

/-- Containers in numbered slots. -/
structure Session (σ K V : Type) where
  /-- The comparator of all containers. -/
  comparator : Comparator σ K
  /-- What the comparator remembers. -/
  memory : σ
  /-- Whether the questions to the comparator are reported. -/
  reportsQuestions : Bool
  /-- The slot of the current container. -/
  current : Nat
  /-- The current container, unless it was dropped. -/
  tree? : Option (LinkedTree K V)
  /-- The other containers by ascending slot. -/
  parked : List (Nat × LinkedTree K V)

namespace Session

variable {σ A K V : Type}

/-! ## Slots -/

/-- Put a container into a slot. -/
def park (slot : Nat) (tree : LinkedTree K V) :
    List (Nat × LinkedTree K V) → List (Nat × LinkedTree K V)
  | [] => [(slot, tree)]
  | (other, parked) :: rest =>
    if slot < other then (slot, tree) :: (other, parked) :: rest
    else if slot = other then (slot, tree) :: rest
    else (other, parked) :: park slot tree rest

/-- All containers by ascending slot. -/
def containers (session : Session σ K V) : List (Nat × LinkedTree K V) :=
  match session.tree? with
  | none => session.parked
  | some tree => park session.current tree session.parked

/-- Make the container in a slot the current one. -/
def use (slot : Nat) (session : Session σ K V) : Session σ K V :=
  let containers := session.containers
  { session with
    current := slot
    tree? := containers.lookup slot
    parked := containers.filter fun (other, _) => other != slot }

/-- Put a container into a slot, which may be the current one. -/
def place (slot : Nat) (tree : LinkedTree K V) (session : Session σ K V) : Session σ K V :=
  if slot = session.current then { session with tree? := some tree }
  else { session with parked := park slot tree session.parked }

/-! ## Opening -/

/-- A session with one container in slot 0. -/
def ofTree (comparator : Comparator σ K) (memory : σ) (reportsQuestions : Bool)
    (tree : LinkedTree K V) : Session σ K V :=
  { comparator, memory, reportsQuestions, current := 0, tree? := some tree, parked := [] }

/-- A session with one container without storage, for which nothing is checked. -/
def ofComparator (comparator : Comparator σ K) (memory : σ) (reportsQuestions : Bool)
    (room : Room) : Session σ K V :=
  ofTree comparator memory reportsQuestions (LinkedTree.empty room)

/-- A session with one container built from a configuration, and the events of building
it. -/
def ofConfig [KeyKind K] (config : Config (Comparator σ K)) (memory : σ)
    (reportsQuestions : Bool) (room : Room) : Except Error (Session σ K V) × List Event :=
  let (built, events) := config.build (KeyKind.zeroSized K) room
  (built.map fun (comparator, tree) => ofTree comparator memory reportsQuestions tree, events)

/-! ## Reports -/

/-- Everything that a command did. -/
structure Report (K V : Type) where
  /-- The reply to it. -/
  reply : Reply K V
  /-- The number of entries of the current container after it, if there is one. -/
  length : Option Nat
  /-- The values released. -/
  released : List V := []
  /-- The events. -/
  trace : List Event := []
  /-- What the comparator was asked. -/
  asked : List (K × K) := []

/-- Drop a container. Gives the values released and the events. -/
def discard (tree : LinkedTree K V) : Except Fault (List V × List Event) :=
  match LinkedTree.clear tree with
  | .ok answer _ => .ok answer
  | .error fault _ => .error fault

/-- The report of a command for which a container, if there was one, had to go. -/
def Report.ofDiscarded (tree? : Option (LinkedTree K V)) (length : Option Nat) : Report K V :=
  match tree?.map discard with
  | none => { reply := .done, length }
  | some (.ok (released, trace)) => { reply := .done, length, released, trace }
  | some (.error fault) => { reply := .stopped fault, length }

/-! ## Carrying out commands -/

/-- Perform actions in order. Gives all replies. -/
def performAll [BEq K] [KeyKind K] [Contents V] (comparator : Comparator σ K)
    (performOwn : A → EngineM σ K V (Reply K V)) :
    List (Action A K V) → Context σ K V → List (Reply K V) × Context σ K V
  | [], context => ([], context)
  | action :: actions, context =>
    let (reply, context) := action.reply comparator performOwn context
    let (replies, context) := performAll comparator performOwn actions context
    (reply :: replies, context)

/-- The context for actions on a container of the session. -/
def contextOf (tree : LinkedTree K V) (session : Session σ K V) :
    Context (Record σ K) K V :=
  { tree, memory := { memory := session.memory } }

/-- The report of actions that left the current container in some context, and the session
after them. -/
def finish (session : Session σ K V) (reply : Reply K V) (context : Context (Record σ K) K V) :
    Report K V × Session σ K V :=
  ({ reply
     length := some context.tree.size
     released := context.released.toList
     trace := context.trace.toList
     asked := if session.reportsQuestions then context.memory.questions.toList else [] },
    { session with tree? := some context.tree, memory := context.memory.memory })

/-- Carry out a command. Gives nothing if there is no container to act on. -/
def step? [BEq K] [KeyKind K] [Contents V]
    (performOwn : Comparator (Record σ K) K → A → EngineM (Record σ K) K V (Reply K V))
    (session : Session σ K V) (command : Command A K V) : Option (Report K V × Session σ K V) :=
  let comparator := session.comparator.recording
  match command, session.tree? with
  | .use slot, _ =>
    let session := session.use slot
    some ({ reply := .done, length := session.tree?.map (·.size) }, session)
  | .clone slot, some tree =>
    let displaced? := session.containers.lookup slot
    some (.ofDiscarded displaced? (some tree.size), session.place slot tree.copy)
  | .drop, some tree => some (.ofDiscarded (some tree) none, { session with tree? := none })
  | .act action, some tree =>
    let (reply, context) :=
      action.reply comparator (performOwn comparator) (session.contextOf tree)
    some (session.finish reply context)
  | .batch actions, some tree =>
    let (replies, context) :=
      performAll comparator (performOwn comparator) actions (session.contextOf tree)
    some (session.finish (.all replies) context)
  | _, none => none

/-- The shape of the current container, empty if it was dropped. -/
def shape (session : Session σ K V) : Except Fault (Tree K) :=
  match session.tree? with
  | none => .ok .nil
  | some tree => Tree.map Prod.fst <$> tree.toTree

/-! ## Closing -/

/-- What is left in a slot at the end. -/
structure Remains (K V : Type) where
  /-- The slot. -/
  slot : Nat
  /-- The number of nodes on the longest path. -/
  height : Nat
  /-- The entries in order. -/
  entries : List (K × V)
  /-- The shape of the tree. -/
  shape : Tree K
  /-- The values released when the container is dropped, in order. -/
  released : List V

/-- What is left in a slot that holds a container. -/
def remains (slot : Nat) (tree : LinkedTree K V) : Except Fault (Remains K V) := do
  return {
    slot
    height := ← tree.height
    entries := ← tree.entries
    shape := (← tree.toTree).map Prod.fst
    released := (← discard tree).1 }

/-- What is left in all slots, by ascending slot. -/
def close (session : Session σ K V) : Except Fault (List (Remains K V)) :=
  session.containers.mapM fun (slot, tree) => remains slot tree

end Session

end RedBlack
