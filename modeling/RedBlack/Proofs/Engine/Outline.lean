import RedBlack.Proofs.Engine.Operation

/-!
# Containers without Slots

An `Outline` is a container as it would be if its nodes were not stored anywhere: a coloured
tree of entries, with the memory of the comparator, the events and the released values. All
operations of the engine are defined on it anew, in terms of trees and paths alone
(`Outline.perform`), so that what they do cannot depend on any slot number, on the order in which
vacated slots are used again, or on the capacity. Storage never runs out here.

A filter takes as many steps as it may need: fewer than the square of the number of places.
-/

namespace RedBlack

open RedBlack.Tree (Frame Path)

variable {σ τ K V : Type}

/-- A container without slots. -/
structure Outline (σ K V : Type) where
  /-- The entries and colours. -/
  tree : Tree (K × V)
  /-- What the comparator remembers. -/
  memory : σ
  /-- The events so far. -/
  trace : Array Event := #[]
  /-- The values that were let go of so far. -/
  released : Array V := #[]

/-- How the descent towards a key asks its way at an entry. -/
def Comparator.consult (comparator : Comparator σ K) (key : K) (entry : K × V) (memory : σ) :
    Ordering × σ :=
  comparator key entry.1 memory

/-- What an operation answers, unless it asks for the slots themselves. -/
def Operation.reply (operation : Operation τ K V) (answer : Answer τ K V) :
    Option (Answer τ K V) :=
  match operation with
  | .capacity => none
  | _ => some answer

namespace Outline

/-- Where a cursor stands. -/
structure Place (K V : Type) where
  /-- The way to an empty place of the tree. -/
  path : Path (K × V)
  /-- Whether the last entry before the place may be removed. -/
  removable : Bool

section

variable (outline : Outline σ K V)

/-- The outline with another tree. -/
def withTree (tree : Tree (K × V)) : Outline σ K V :=
  { outline with tree }

/-- The outline after reporting events. -/
def report (events : List Event) : Outline σ K V :=
  { outline with trace := outline.trace ++ events }

/-- The outline after releasing values. -/
def release (values : List V) : Outline σ K V :=
  { outline with released := outline.released ++ values }

end

section

variable (comparator : Comparator σ K) (key : K) (outline : Outline σ K V)

/-! ## Access by key and by position -/

/-- The place where the descent for a key ends, and the subtree there. -/
def seek : (Tree (K × V) × Path (K × V)) × Outline σ K V :=
  let (place, memory) := outline.tree.seek (comparator.consult key) [] outline.memory
  (place, { outline with memory })

/-- Whether a key is stored. -/
def contains : Bool × Outline σ K V :=
  match outline.seek comparator key with
  | ((.nil, _), after) => (false, after)
  | ((.node _ _ _ _, _), after) => (true, after)

/-- The value stored under a key. -/
def get : Except Error V × Outline σ K V :=
  match outline.seek comparator key with
  | ((.nil, _), after) => (.error .keyNotFound, after)
  | ((.node _ _ entry _, _), after) => (.ok entry.2, after)

/-- Change the value stored under a key. -/
def update (change : V → V) : Except Error V × Outline σ K V :=
  match outline.seek comparator key with
  | ((.nil, _), after) => (.error .keyNotFound, after)
  | ((.node color left entry right, path), after) =>
    (.ok (change entry.2), after.withTree
      ((Tree.node color left (entry.1, change entry.2) right).under path))

/-- Store an entry in an empty place. -/
def insertAt (path : Path (K × V)) (value : V) : Outline σ K V :=
  let (tree, events) := (Tree.node .red .nil (key, value) .nil).repairRed path
  (outline.withTree tree).report events

/-- Store an entry. -/
def insert (value : V) (policy : DuplicatePolicy) : Except Error (Option V) × Outline σ K V :=
  match outline.seek comparator key with
  | ((.nil, path), after) => (.ok none, after.insertAt key path value)
  | ((.node color left entry right, path), after) =>
    match policy with
    | .overwrite =>
      (.ok (some entry.2),
        after.withTree ((Tree.node color left (entry.1, value) right).under path))
    | .reject => (.error .keyAlreadyExists, after.release [value])

/-- Take a node out of the tree. -/
def erase (color : Color) (left : Tree (K × V)) (entry : K × V) (right : Tree (K × V))
    (path : Path (K × V)) : (K × V) × Outline σ K V :=
  let (tree, events) := Tree.erase color left right path
  (entry, (outline.withTree tree).report events)

/-- Take the node of a frame around a tree out. -/
def eraseFrame (below : Tree (K × V)) (frame : Frame (K × V)) (path : Path (K × V)) :
    (K × V) × Outline σ K V :=
  outline.erase frame.color (frame.left below) frame.entry (frame.right below) path

/-- Remove the entry stored under a key. -/
def remove : Except Error (K × V) × Outline σ K V :=
  match outline.seek comparator key with
  | ((.nil, _), after) => (.error .keyNotFound, after)
  | ((.node color left entry right, path), after) =>
    let (entry, after) := after.erase color left entry right path
    (.ok entry, after)

/-- The outermost entry on one side. -/
def outermost (side : Side) : Except Error (K × V) :=
  match outline.tree.spine side [] with
  | [] => .error .emptyContainer
  | frame :: _ => .ok frame.entry

/-- Remove the outermost entry on one side. -/
def pop (side : Side) : Except Error (K × V) × Outline σ K V :=
  match outline.tree.spine side [] with
  | [] => (.error .emptyContainer, outline)
  | frame :: path =>
    let (entry, after) := outline.eraseFrame .nil frame path
    (.ok entry, after)

/-- Release every entry, children before their parents. -/
def clear : Outline σ K V :=
  match outline.tree with
  | .nil => outline
  | .node _ _ _ _ =>
    ((outline.withTree .nil).report [.cleared outline.tree.size]).release
      (outline.tree.postorder.map Prod.snd)

/-! ## Cursors -/

/-- The place before all entries. -/
def Place.start (tree : Tree (K × V)) : Place K V :=
  { path := tree.spine .left [], removable := false }

/-- The node that may be removed: the tree below it towards the place, its frame, and the
path above. -/
def Place.last? (place : Place K V) : Option (Tree (K × V) × Frame (K × V) × Path (K × V)) :=
  if place.removable then Path.climb .right place.path .nil else none

/-- The next entry, if there is one, and the place right after it. -/
def Place.next (place : Place K V) : Option (K × V) × Place K V :=
  match Path.climb .left place.path .nil with
  | none => (none, place)
  | some (below, frame, up) => (some frame.entry, ⟨Path.pass below frame frame.entry up, true⟩)

/-- The next entry, if there is one, and the place after it, with another value put in. -/
def nextReplacing (value : V) (place : Place K V) :
    Option (K × V) × Place K V × Outline σ K V :=
  match Path.climb .left place.path .nil with
  | none => (none, place, outline)
  | some (below, frame, up) =>
    let path := Path.pass below frame (frame.entry.1, value) up
    (some frame.entry, ⟨path, true⟩, outline.withTree (Tree.nil.under path))

/-- The empty place to which the comparator leads a key, past all that it calls equal. -/
def trail : Path (K × V) × Outline σ K V :=
  let (path, memory) := outline.tree.trail (comparator.consult key) [] outline.memory
  (path, { outline with memory }.report [.resynchronized (Path.turns path).length])

/-- Take the node of a frame out and look for the place of its key. -/
def cut (below : Tree (K × V)) (frame : Frame (K × V)) (up : Path (K × V)) :
    ((K × V) × Path (K × V)) × Outline σ K V :=
  let (entry, after) := outline.eraseFrame below frame up
  let (path, after) := after.trail comparator entry.1
  ((entry, path), after)

/-- Remove the entry before a place. -/
def removeAt (place : Place K V) : Except Error (K × V) × Place K V × Outline σ K V :=
  match place.last? with
  | none => (.error .invalidCursorState, place, outline)
  | some (below, frame, up) =>
    let ((entry, path), after) := outline.cut comparator below frame up
    (.ok entry, ⟨path, false⟩, after)

/-- Use the cursor at a place once. -/
def move (place : Place K V) : Cursor.Move V → Cursor.Outcome K V × Place K V × Outline σ K V
  | .next => (.yielded place.next.1, place.next.2, outline)
  | .replace value =>
    let (entry, place, after) := outline.nextReplacing value place
    (.yielded entry, place, after)
  | .hasNext => (.flag (!(Path.after place.path).isEmpty), place, outline)
  | .remove =>
    let (entry, place, after) := outline.removeAt comparator place
    (.removed entry, place, after)

/-- Use the cursor at a place several times. -/
def moves (outline : Outline σ K V) (place : Place K V) :
    List (Cursor.Move V) → List (Cursor.Outcome K V) × Outline σ K V
  | [] => ([], outline)
  | move :: moves =>
    let (outcome, place, after) := outline.move comparator place move
    let (outcomes, after) := after.moves place moves
    (outcome :: outcomes, after)

/-- Keep the entries after a place for which `keep` answers `true`, in the given number of
steps. -/
def retainWithin (keep : K → V → StateM τ (Bool × V)) :
    Nat → Path (K × V) → Outline σ K V → τ → τ × Outline σ K V
  | 0, _, outline, state => (state, outline)
  | steps + 1, path, outline, state =>
    match Path.climb .left path .nil with
    | none => (state, outline)
    | some (below, frame, up) =>
      let ((stays, value), state) := keep frame.entry.1 frame.entry.2 state
      let entry := (frame.entry.1, value)
      let passed := Path.pass below frame entry up
      let visited := outline.withTree (Tree.nil.under passed)
      if stays then retainWithin keep steps passed visited state
      else
        let ((removed, place), after) :=
          visited.cut comparator frame.sibling ⟨.right, frame.color, entry, below⟩ up
        retainWithin keep steps place (after.release [removed.2]) state

/-- Keep the entries for which `keep` answers `true`. -/
def retain (keep : K → V → StateM τ (Bool × V)) (state : τ) : τ × Outline σ K V :=
  let places := outline.tree.size + 1
  retainWithin comparator keep (places * places) (outline.tree.spine .left []) outline state

/-! ## Operations -/

/-- Perform an operation. Without slots, there is no capacity to answer with. -/
def perform (operation : Operation τ K V) (outline : Outline σ K V) :
    Option (Answer τ K V) × Outline σ K V :=
  match operation with
  | .insert key value policy =>
    let (stored, after) := outline.insert comparator key value policy
    (some (.stored stored), after)
  | .get key =>
    let (found, after) := outline.get comparator key
    (some (.value found), after)
  | .update key change =>
    let (found, after) := outline.update comparator key change
    (some (.value found), after)
  | .contains key =>
    let (found, after) := outline.contains comparator key
    (some (.flag found), after)
  | .remove key =>
    let (found, after) := outline.remove comparator key
    (some (.entry found), after)
  | .outermost side => (some (.entry (outline.outermost side)), outline)
  | .pop side =>
    let (found, after) := outline.pop side
    (some (.entry found), after)
  | .clear => (some .done, outline.clear)
  | .length => (some (.number outline.tree.size), outline)
  | .isEmpty => (some (.flag (outline.tree.size == 0)), outline)
  | .height => (some (.number outline.tree.height), outline)
  | .capacity => (none, outline)
  | .entries => (some (.entries outline.tree.toList), outline)
  | .iterate view steps =>
    (some (.iterated (Session.listSteps view steps outline.tree.toList)), outline)
  | .traverse moves =>
    let (outcomes, after) := outline.moves comparator (.start outline.tree) moves
    (some (.traversed outcomes), after)
  | .retain keep state =>
    let (state, after) := outline.retain comparator keep state
    (some (.retained state), after)
  | .copy => (some .done, outline)

end

end Outline

/-! ## What can be seen -/

/-- Everything that an operation shows of a container, but for how its nodes are stored. -/
structure Sight (σ τ K V : Type) where
  /-- The answer, unless slots were asked for. -/
  answer : Option (Answer τ K V)
  /-- The entries and colours. -/
  tree : Tree (K × V)
  /-- What the comparator remembers. -/
  memory : σ
  /-- The events so far. -/
  trace : Array Event
  /-- The values that were let go of so far. -/
  released : Array V

/-- Storage could not grow. -/
def Sight.Refused (sight : Sight σ τ K V) : Prop :=
  ∃ answer, sight.answer = some answer ∧ answer.StorageRefused

instance (sight : Sight σ τ K V) : Decidable sight.Refused :=
  inferInstanceAs (Decidable (∃ answer ∈ sight.answer, answer.StorageRefused))

namespace Outline

/-- What an outline shows after an operation. -/
def sight (outline : Outline σ K V) (answer : Option (Answer τ K V)) : Sight σ τ K V :=
  { answer, tree := outline.tree, memory := outline.memory, trace := outline.trace
    released := outline.released }

/-- What there is to see after each of several operations. -/
def watch (comparator : Comparator σ K) :
    List (Operation τ K V) → Outline σ K V → List (Sight σ τ K V)
  | [], _ => []
  | operation :: operations, outline =>
    let (answer, after) := outline.perform comparator operation
    after.sight answer :: watch comparator operations after

end Outline

/-- Perform an operation on a container and look at what it shows. -/
def Engine.watch (comparator : Comparator σ K) (operation : Operation τ K V) :
    EngineM σ K V (Sight σ τ K V) := do
  let answer ← operation.perform comparator
  let tree ← inspect LinkedTree.toTree
  let { memory, trace, released, .. } ← MonadState.get
  return { answer := operation.reply answer, tree, memory, trace, released }

end RedBlack
