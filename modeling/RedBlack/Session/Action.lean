import RedBlack.Container
import RedBlack.Session.Kind

/-!
# Actions and Replies

What a session can be told to do with a container, and the form of its replies.
-/

namespace RedBlack

namespace Session

/-! ## Actions -/

/-- A property of an entry that is being visited. -/
inductive Filter (K : Type) where
  /-- Every entry. -/
  | all
  /-- No entry. -/
  | none
  /-- Keys with a given remainder. -/
  | keyMod (modulus remainder : Int)
  /-- Keys below a bound. -/
  | below (bound : Int)
  /-- Keys above a bound. -/
  | above (bound : Int)
  /-- Values with a given remainder. -/
  | valueMod (modulus remainder : Int)
  /-- Entries with a given remainder of the number of entries visited before. -/
  | visitMod (modulus remainder : Nat)
  /-- Some keys. -/
  | among (keys : List K)

/-- Whether an entry that is visited after some others has the property. -/
def Filter.holds {K V : Type} [BEq K] [KeyKind K] [Contents V] (visited : Nat) (key : K)
    (value : V) : Filter K → Bool
  | all => true
  | none => false
  | keyMod modulus remainder =>
    (KeyKind.number? key).any fun n => n % modulus == remainder
  | below bound => (KeyKind.number? key).any fun n => n < bound
  | above bound => (KeyKind.number? key).any fun n => n > bound
  | valueMod modulus remainder => Contents.number value % modulus == remainder
  | visitMod modulus remainder => visited % modulus == remainder
  | among keys => keys.contains key

/-- What an iterator yields of an entry. -/
inductive View where
  /-- The entry itself. -/
  | entries
  /-- Its key. -/
  | keys
  /-- Its value. -/
  | values

/-- A step of an iterator. -/
inductive IteratorStep where
  /-- Yield the next item. -/
  | next
  /-- Skip some items and yield the one after them. -/
  | nth (skipped : Nat)
  /-- The number of items to come. -/
  | length
  /-- Both bounds on the number of items to come. -/
  | sizeHint
  /-- What a copy of the iterator yields. -/
  | fork
  /-- Yield all items to come. -/
  | rest

/-- A step of a cursor. -/
inductive CursorStep (K V : Type) where
  /-- Yield the next entry. -/
  | next
  /-- Whether there is an entry to yield. -/
  | hasNext
  /-- Remove the entry yielded last. -/
  | remove
  /-- Pass over a number of entries; a negative number passes over none. -/
  | skip (count : Int)
  /-- Yield all entries to come and remove those with a property. -/
  | drain (filter : Filter K)
  /-- Yield the next entry and put another value in its place. -/
  | replace (value : V)

/-- An action that only maps know. -/
inductive MapAction (V K : Type) where
  /-- Store a value and overwrite what is stored under an equal key. -/
  | insert (key : K) (value : V)
  /-- Store a value under a policy for equal keys. -/
  | put (key : K) (value : V) (policy : DuplicatePolicy)
  /-- The value stored under a key. -/
  | get (key : K)
  /-- Change the value stored under a key and give the new one. -/
  | update (key : K) (change : V → V)
  /-- Remove an entry and give its value. -/
  | remove (key : K)
  /-- Remove an entry and give it. -/
  | removeEntry (key : K)

/-- An action that only sets know. -/
inductive SetAction (K : Type) where
  /-- Add a key. -/
  | insert (key : K)
  /-- Remove a key. -/
  | remove (key : K)
  /-- Remove a key and give the stored one. -/
  | take (key : K)

/-- An action on the current container; `A` holds those of its kind alone. -/
inductive Action (A K V : Type) where
  /-- An action that only containers of this kind know. -/
  | own (action : A)
  /-- Insert the keys `a * i + b` modulo `modulus` for the indices `i` below a count. -/
  | fill (count : Nat) (a b modulus : Int)
  /-- Remove every entry. -/
  | clear
  /-- The number of entries. -/
  | length
  /-- The number of nodes on the longest path. -/
  | height
  /-- The number of slots that fit without growing. -/
  | capacity
  /-- Whether there are no entries. -/
  | isEmpty
  /-- Whether a key is stored. -/
  | contains (key : K)
  /-- The outermost entry on one side. -/
  | outermost (side : Side)
  /-- Remove the outermost entry on one side. -/
  | pop (side : Side)
  /-- All entries. -/
  | entries
  /-- Steps of an iterator. -/
  | iterate (view : View) (steps : List IteratorStep)
  /-- Keep the entries with a property, and add a number to every value visited. -/
  | retain (filter : Filter K) (summand : Int64)
  /-- Steps of a cursor. -/
  | cursor (steps : List (CursorStep K V))
  /-- The printed form on one line. -/
  | inlineText
  /-- The printed form with every element on a line of its own. -/
  | blockText
  /-- The shape of the tree. -/
  | shape
  /-- The black height, if the tree keeps all rules. -/
  | validate

/-- A command to a session. -/
inductive Command (A K V : Type) where
  /-- Act on the current container. -/
  | act (action : Action A K V)
  /-- Act several times. -/
  | batch (actions : List (Action A K V))
  /-- Make the container in a slot the current one. -/
  | use (slot : Nat)
  /-- Put a copy of the current container into a slot. -/
  | clone (slot : Nat)
  /-- Drop the current container. -/
  | drop

/-! ## Replies -/

/-- What an iterator yields. -/
inductive Item (K V : Type) where
  /-- A key with its value. -/
  | entry (key : K) (value : V)
  /-- A key. -/
  | key (key : K)
  /-- A value. -/
  | value (value : V)

/-- What an iterator yields of an entry under a view. -/
def View.item {K V : Type} (view : View) (entry : K × V) : Item K V :=
  match view with
  | entries => .entry entry.1 entry.2
  | keys => .key entry.1
  | values => .value entry.2

/-- The reply to a command. -/
inductive Reply (K V : Type) where
  /-- There is nothing to say. -/
  | done
  /-- A yes or a no. -/
  | flag (answer : Bool)
  /-- A number. -/
  | number (answer : Nat)
  /-- A lower and an upper bound. -/
  | bounds (lower upper : Nat)
  /-- A printed form. -/
  | text (answer : String)
  /-- A shape, with the keys as entries. -/
  | shape (tree : Tree K)
  /-- A value. -/
  | value (value : V)
  /-- An entry. -/
  | entry (key : K) (value : V)
  /-- One item. -/
  | item (item : Item K V)
  /-- A list of items. -/
  | items (items : List (Item K V))
  /-- The keys visited, each with the outcome of its removal if it was to be removed. -/
  | drained (visits : List (K × Option (Except Error (K × V))))
  /-- The operation was refused. -/
  | refused (error : Error)
  /-- The operation ran into a fault. -/
  | stopped (fault : Fault)
  /-- The replies to several actions or steps. -/
  | all (replies : List (Reply K V))

namespace Reply

variable {α K V : Type}

/-- The reply to an operation that may be refused. -/
def ofExcept (reply : α → Reply K V) : Except Error α → Reply K V
  | .ok answer => reply answer
  | .error error => refused error

/-- The reply with an answer that may be missing. -/
def ofOption (reply : α → Reply K V) : Option α → Reply K V
  | some answer => reply answer
  | none => done

/-- The reply with an entry. -/
def ofEntry (entry : K × V) : Reply K V :=
  .entry entry.1 entry.2

end Reply

end Session

end RedBlack
