import RedBlack.Engine.Validation
import RedBlack.Session.Action

/-!
# Performing Actions

What each action of a session does to the current container, in terms of the engine.
-/

namespace RedBlack

namespace Session

variable {σ A K V : Type}

/-! ## Iterators and cursors -/

/-- Take one step of an iterator. -/
def iteratorStep (view : View) (iterator : Iterator K V) :
    IteratorStep → Except Fault (Reply K V × Iterator K V)
  | .next => do
    let (entry, iterator) ← iterator.next
    return (.ofOption (fun entry => .item (view.item entry)) entry, iterator)
  | .nth skipped => do
    let (entry, iterator) ← iterator.nth skipped
    return (.ofOption (fun entry => .item (view.item entry)) entry, iterator)
  | .length => return (.number iterator.remaining, iterator)
  | .sizeHint => return (.bounds iterator.sizeHint.1 iterator.sizeHint.2, iterator)
  | .fork => do
    let (entries, _) ← iterator.collect
    return (.items (entries.map view.item), iterator)
  | .rest => do
    let (entries, iterator) ← iterator.collect
    return (.items (entries.map view.item), iterator)

/-- Take the steps of an iterator. -/
def iteratorSteps (view : View) :
    List IteratorStep → Iterator K V → Except Fault (List (Reply K V))
  | [], _ => return []
  | step :: steps, iterator => do
    let (reply, iterator) ← iteratorStep view iterator step
    return reply :: (← iteratorSteps view steps iterator)

/-- Pass over some entries, as long as there are any. Gives how many there were. -/
def skip (passed : Nat) : Nat → Cursor → EngineM σ K V (Nat × Cursor)
  | 0, cursor => return (passed, cursor)
  | count + 1, cursor => do
    match ← cursor.step with
    | (none, cursor) => return (passed, cursor)
    | (some _, cursor) => skip (passed + 1) count cursor

/-- Yield all entries to come in the given number of steps and remove those with a
property. -/
def drainWithin [BEq K] [KeyKind K] [Contents V] (comparator : Comparator σ K)
    (filter : Filter K) (visited : Nat) :
    Nat → Cursor → EngineM σ K V (List (K × Option (Except Error (K × V))) × Cursor)
  | 0, _ => throw .endless
  | steps + 1, cursor => do
    match ← cursor.next with
    | (none, cursor) => return ([], cursor)
    | (some (key, value), cursor) =>
      if filter.holds visited key value then
        let (removed, cursor) ← cursor.remove comparator
        let (visits, cursor) ← drainWithin comparator filter (visited + 1) steps cursor
        return ((key, some removed) :: visits, cursor)
      else
        let (visits, cursor) ← drainWithin comparator filter (visited + 1) steps cursor
        return ((key, none) :: visits, cursor)

/-- Take one step of a cursor. -/
def cursorStep [BEq K] [KeyKind K] [Contents V] (comparator : Comparator σ K)
    (cursor : Cursor) : CursorStep K V → EngineM σ K V (Reply K V × Cursor)
  | .next => do
    let (entry, cursor) ← cursor.next
    return (.ofOption .ofEntry entry, cursor)
  | .hasNext => return (.flag cursor.hasNext, cursor)
  | .remove => do
    let (removed, cursor) ← cursor.remove comparator
    return (.ofExcept .ofEntry removed, cursor)
  | .skip count => do
    let (passed, cursor) ← skip 0 count.toNat cursor
    return (.number passed, cursor)
  | .drain filter => do
    let budget ← Engine.onTree LinkedTree.budget
    let (visits, cursor) ← drainWithin comparator filter 0 (budget * budget) cursor
    return (.drained visits, cursor)
  | .replace value => do
    let (entry, cursor) ← cursor.nextReplacing value
    return (.ofOption .ofEntry entry, cursor)

/-- Take the steps of a cursor. -/
def cursorSteps [BEq K] [KeyKind K] [Contents V] (comparator : Comparator σ K) :
    List (CursorStep K V) → Cursor → EngineM σ K V (List (Reply K V))
  | [], _ => return []
  | step :: steps, cursor => do
    let (reply, cursor) ← cursorStep comparator cursor step
    return reply :: (← cursorSteps comparator steps cursor)

/-! ## Actions of one kind -/

/-- Perform an action that only maps know. -/
def MapAction.perform (comparator : Comparator σ K) :
    MapAction V K → EngineM σ K V (Reply K V)
  | insert key value => do
    return .ofExcept (.ofOption .value) (← OrderedMap.insert comparator key value)
  | put key value policy => do
    return .ofExcept (.ofOption .value) (← Engine.insert comparator key value policy)
  | get key => do
    return .ofExcept .value (← Engine.get comparator key)
  | update key change => do
    return .ofExcept .value (← Engine.update comparator key change)
  | remove key => do
    return .ofExcept .value (← OrderedMap.remove comparator key)
  | removeEntry key => do
    return .ofExcept .ofEntry (← OrderedMap.removeEntry comparator key)

/-- Perform an action that only sets know. -/
def SetAction.perform (comparator : Comparator σ K) :
    SetAction K → EngineM σ K Unit (Reply K Unit)
  | insert key => do
    return .ofExcept (fun _ => .done) (← OrderedSet.insert comparator key)
  | remove key => do
    return .ofExcept (fun _ => .done) (← OrderedSet.remove comparator key)
  | take key => do
    return .ofExcept (fun key => .entry key ()) (← OrderedSet.take comparator key)

/-! ## Actions of both kinds -/

/-- Insert the keys `a * i + b` modulo `modulus` for a number of indices `i` from `index`
on. Gives how many of them were new. -/
def fill [KeyKind K] [Contents V] (comparator : Comparator σ K) (a b modulus : Int) :
    Nat → Nat → EngineM σ K V Nat
  | 0, _ => return 0
  | count + 1, index => do
    match KeyKind.ofNumber? (K := K) ((a * index + b) % modulus) with
    | none => fill comparator a b modulus count (index + 1)
    | some key =>
      let stored ← Engine.insert comparator key (Contents.ofIndex index)
        (Contents.onDuplicate (V := V))
      let others ← fill comparator a b modulus count (index + 1)
      match stored with
      | .ok none => return others + 1
      | _ => return others

/-- Keep the entries with a property, and add a number to every value visited. Gives the
keys visited. -/
def retain [BEq K] [KeyKind K] [Contents V] (comparator : Comparator σ K) (filter : Filter K)
    (summand : Int64) : EngineM σ K V (Array K) :=
  Engine.retain comparator
    (fun key value visited =>
      ((filter.holds visited.size key value, Contents.add value summand), visited.push key))
    #[]

/-- The printed form of a container with the given entries. -/
def display [KeyKind K] [Contents V] (entries : List (K × V)) : Display :=
  .collection (entries.map fun entry => Contents.display (KeyKind.display entry.1) entry.2)

/-- Perform an action on a container, given how those of its kind alone are performed. -/
def Action.perform [BEq K] [KeyKind K] [Contents V] (comparator : Comparator σ K)
    (performOwn : A → EngineM σ K V (Reply K V)) :
    Action A K V → EngineM σ K V (Reply K V)
  | own action => performOwn action
  | fill count a b modulus => do
    return .number (← Session.fill comparator a b modulus count 0)
  | clear => do
    Engine.clear
    return .done
  | length => do
    return .number (← Engine.inspect fun tree => .ok tree.size)
  | height => do
    return .number (← Engine.inspect fun tree => tree.height)
  | capacity => do
    return .number (← Engine.inspect fun tree => .ok tree.arena.capacity)
  | isEmpty => do
    return .flag (← Engine.inspect fun tree => .ok (tree.size == 0))
  | contains key => do
    return .flag (← Engine.contains comparator key)
  | outermost side => do
    return .ofExcept .ofEntry (← Engine.outermost side)
  | pop side => do
    return .ofExcept .ofEntry (← Engine.pop side)
  | entries => do
    let entries ← Engine.inspect fun tree => tree.entries
    return .items (entries.map View.entries.item)
  | iterate view steps => do
    return .all (← Engine.inspect fun tree => do
      iteratorSteps view steps (← Iterator.ofTree tree))
  | retain filter summand => do
    let visited ← Session.retain comparator filter summand
    return .items (visited.toList.map .key)
  | cursor steps => do
    return .all (← cursorSteps comparator steps (← Cursor.start))
  | inlineText => do
    return .text (display (← Engine.inspect fun tree => tree.entries)).inline
  | blockText => do
    return .text ((display (← Engine.inspect fun tree => tree.entries)).block "")
  | shape => do
    return .shape (← Engine.inspect fun tree => (Tree.map Prod.fst) <$> tree.toTree)
  | validate => do
    return .number (← Engine.validate comparator)

/-- Perform an action; a fault becomes the reply. -/
def Action.reply [BEq K] [KeyKind K] [Contents V] (comparator : Comparator σ K)
    (performOwn : A → EngineM σ K V (Reply K V)) (action : Action A K V)
    (context : Context σ K V) : Reply K V × Context σ K V :=
  match action.perform comparator performOwn context with
  | .ok reply context => (reply, context)
  | .error fault context => (.stopped fault, context)

end Session

end RedBlack
