import RedBlack.Proofs.Engine.Operation

/-!
# Sorted Lists of Entries

A container as a list of entries, strictly ascending along an order of the keys. Every
operation is the obvious one on such a list: `find?` looks for the entry whose key is equal
to a key, `store` puts an entry into its place, `erase` takes one out, and a traversal moves
through the list (`SortedList.Traversal`). None of this knows of trees.

`perform` answers an operation and `run` a sequence of them. Two questions are left open, since
the entries do not determine the answers: the height of the tree and the capacity.
-/

namespace RedBlack

namespace SortedList

variable {τ K V : Type}

section

variable (order : Order K)

/-- Every key is smaller than the keys after it. -/
def Ascending (entries : List (K × V)) : Prop :=
  entries.Pairwise fun first second => order first.1 second.1 = .lt

/-- The entry whose key is equal to a key. -/
def find? (key : K) (entries : List (K × V)) : Option (K × V) :=
  entries.find? fun entry => order key entry.1 == .eq

/-- Put an entry into its place. An equal key that is stored already stays, with the new
value. -/
def store (key : K) (value : V) : List (K × V) → List (K × V)
  | [] => [(key, value)]
  | entry :: rest =>
    match order key entry.1 with
    | .lt => (key, value) :: entry :: rest
    | .eq => (entry.1, value) :: rest
    | .gt => entry :: store key value rest

/-- Take the entry whose key is equal to a key out. -/
def erase (key : K) (entries : List (K × V)) : List (K × V) :=
  entries.eraseP fun entry => order key entry.1 == .eq

/-- Store an entry under a policy for keys that are stored already. -/
def insert (key : K) (value : V) (policy : DuplicatePolicy) (entries : List (K × V)) :
    Except Error (Option V) × List (K × V) :=
  match find? order key entries, policy with
  | none, _ => (.ok none, store order key value entries)
  | some entry, .overwrite => (.ok (some entry.2), store order key value entries)
  | some _, .reject => (.error .keyAlreadyExists, entries)

/-- The entry, or the reason why there is none. -/
def orError (error : Error) : Option (K × V) → Except Error (K × V)
  | none => .error error
  | some entry => .ok entry

/-- The outermost entry on one side. -/
def outermost (side : Side) (entries : List (K × V)) : Except Error (K × V) :=
  match side with
  | .left => orError .emptyContainer entries.head?
  | .right => orError .emptyContainer entries.getLast?

/-- The entries without the outermost one on one side. -/
def pop (side : Side) (entries : List (K × V)) : List (K × V) :=
  match side with
  | .left => entries.tail
  | .right => entries.dropLast

/-- Visit the entries in order and keep those for which `keep` answers `true`, with the values
that it leaves. -/
def retain (keep : K → V → StateM τ (Bool × V)) : List (K × V) → τ → τ × List (K × V)
  | [], state => (state, [])
  | (key, value) :: rest, state =>
    let ((stays, value), state) := keep key value state
    let (state, kept) := retain keep rest state
    (state, if stays then (key, value) :: kept else kept)

end

/-! ## Traversals -/

/-- A traversal of a list of entries. -/
structure Traversal (K V : Type) where
  /-- The entries that were yielded and not removed, as they are now. -/
  passed : List (K × V)
  /-- The entries to come. -/
  ahead : List (K × V)
  /-- Whether an entry was yielded and none removed since. -/
  removable : Bool

namespace Traversal

/-- The entries that are there. -/
def entries (traversal : Traversal K V) : List (K × V) :=
  traversal.passed ++ traversal.ahead

/-- The traversal before the first entry. -/
def start (entries : List (K × V)) : Traversal K V :=
  { passed := [], ahead := entries, removable := false }

/-- Yield the next entry, if there is one, and leave another value in its place. -/
def yield (traversal : Traversal K V) (change : V → V) : Option (K × V) × Traversal K V :=
  match traversal.ahead with
  | [] => (none, traversal)
  | entry :: ahead =>
    (some entry,
      { passed := traversal.passed ++ [(entry.1, change entry.2)], ahead, removable := true })

/-- Remove the entry yielded last. -/
def remove (traversal : Traversal K V) : Except Error (K × V) × Traversal K V :=
  match traversal.removable, traversal.passed.getLast? with
  | true, some entry =>
    (.ok entry, { traversal with passed := traversal.passed.dropLast, removable := false })
  | _, _ => (.error .invalidCursorState, traversal)

/-- Use a traversal once. -/
def move (traversal : Traversal K V) : Cursor.Move V → Cursor.Outcome K V × Traversal K V
  | .next =>
    let (entry, traversal) := traversal.yield id
    (.yielded entry, traversal)
  | .replace value =>
    let (entry, traversal) := traversal.yield fun _ => value
    (.yielded entry, traversal)
  | .hasNext => (.flag (!traversal.ahead.isEmpty), traversal)
  | .remove =>
    let (entry, traversal) := traversal.remove
    (.removed entry, traversal)

/-- Use a traversal several times. -/
def moves (traversal : Traversal K V) :
    List (Cursor.Move V) → List (Cursor.Outcome K V) × Traversal K V
  | [] => ([], traversal)
  | move :: moves =>
    let (outcome, traversal) := traversal.move move
    let (outcomes, traversal) := traversal.moves moves
    (outcome :: outcomes, traversal)

end Traversal

/-! ## Operations -/

/-- Perform an operation. Gives its answer, if the entries determine it, and the entries after
it. -/
def perform (order : Order K) (operation : Operation τ K V) (entries : List (K × V)) :
    Option (Answer τ K V) × List (K × V) :=
  match operation with
  | .insert key value policy =>
    let (stored, entries) := insert order key value policy entries
    (some (.stored stored), entries)
  | .get key =>
    (some (.value ((orError .keyNotFound (find? order key entries)).map Prod.snd)), entries)
  | .update key change =>
    match find? order key entries with
    | none => (some (.value (.error .keyNotFound)), entries)
    | some entry =>
      (some (.value (.ok (change entry.2))), store order key (change entry.2) entries)
  | .contains key => (some (.flag (find? order key entries).isSome), entries)
  | .remove key =>
    (some (.entry (orError .keyNotFound (find? order key entries))), erase order key entries)
  | .outermost side => (some (.entry (outermost side entries)), entries)
  | .pop side => (some (.entry (outermost side entries)), pop side entries)
  | .clear => (some .done, [])
  | .length => (some (.number entries.length), entries)
  | .isEmpty => (some (.flag entries.isEmpty), entries)
  | .height => (none, entries)
  | .capacity => (none, entries)
  | .entries => (some (.entries entries), entries)
  | .iterate view steps => (some (.iterated (Session.listSteps view steps entries)), entries)
  | .traverse moves =>
    let (outcomes, traversal) := (Traversal.start entries).moves moves
    (some (.traversed outcomes), traversal.entries)
  | .retain keep state =>
    let (state, kept) := retain keep entries state
    (some (.retained state), kept)
  | .copy => (some .done, entries)

/-- Act several times, as `perform` says. Gives the answer to each action, with the entries
after it. -/
def run {A B : Type} (perform : A → List (K × V) → Option B × List (K × V)) :
    List A → List (K × V) → List (Option B × List (K × V))
  | [], _ => []
  | action :: actions, entries =>
    let result := perform action entries
    result :: run perform actions result.2

/-! ## Splitting at a key -/

variable {order : Order K} {key : K} {front back entries : List (K × V)} {entry : K × V}

/-- No entry is found between the keys before and after a key. -/
theorem find?_append_of_parts (hfront : ∀ e ∈ front, order key e.1 = .gt)
    (hback : ∀ e ∈ back, order key e.1 = .lt) : find? order key (front ++ back) = none := by
  rw [find?, List.find?_eq_none]
  intro e he
  rcases List.mem_append.1 he with he | he
  · rw [hfront e he]
    decide
  · rw [hback e he]
    decide

/-- The first entry with an equal key is found. -/
theorem find?_append_cons (hfront : ∀ e ∈ front, order key e.1 = .gt)
    (hentry : order key entry.1 = .eq) :
    find? order key (front ++ entry :: back) = some entry := by
  have hnone : find? order key front = none := by
    have h : find? order key (front ++ []) = none :=
      find?_append_of_parts hfront (List.forall_mem_nil _)
    rwa [List.append_nil] at h
  rw [find?, List.find?_append]
  rw [find?] at hnone
  rw [hnone, Option.none_or, List.find?_cons, hentry]
  rfl

/-- An entry goes behind all keys that it is greater than. -/
theorem store_append (hfront : ∀ e ∈ front, order key e.1 = .gt) (value : V) :
    store order key value (front ++ back) = front ++ store order key value back := by
  induction front with
  | nil => rfl
  | cons first front ih =>
    rw [List.forall_mem_cons] at hfront
    rw [List.cons_append, store, hfront.1, ih hfront.2]
    rfl

/-- A new entry goes between the smaller and the greater keys. -/
theorem store_append_of_parts (hfront : ∀ e ∈ front, order key e.1 = .gt)
    (hback : ∀ e ∈ back, order key e.1 = .lt) (value : V) :
    store order key value (front ++ back) = front ++ (key, value) :: back := by
  rw [store_append hfront]
  cases back with
  | nil => rfl
  | cons first back => rw [store, hback first List.mem_cons_self]

/-- A stored key stays, with the new value. -/
theorem store_append_cons (hfront : ∀ e ∈ front, order key e.1 = .gt)
    (hentry : order key entry.1 = .eq) (value : V) :
    store order key value (front ++ entry :: back) = front ++ (entry.1, value) :: back := by
  rw [store_append hfront, store, hentry]

/-- The first entry with an equal key is taken out. -/
theorem erase_append_cons (hfront : ∀ e ∈ front, order key e.1 = .gt)
    (hentry : order key entry.1 = .eq) :
    erase order key (front ++ entry :: back) = front ++ back := by
  -- the smaller keys in front are passed over
  rw [erase, List.eraseP_append_right, List.eraseP_cons_of_pos]
  · rw [hentry]
    rfl
  · intro e he
    rw [hfront e he]
    decide

/-- Without an entry to take out, nothing changes. -/
theorem erase_eq_of_find?_eq_none (h : find? order key entries = none) :
    erase order key entries = entries := by
  rw [find?, List.find?_eq_none] at h
  exact List.eraseP_of_forall_not h

/-! ## Ascending lists -/

/-- Fewer keys, in the same order, are still ascending. -/
theorem Ascending.of_keys_sublist {fewer : List (K × V)} (h : Ascending order entries)
    (hkeys : (fewer.map Prod.fst).Sublist (entries.map Prod.fst)) : Ascending order fewer := by
  have hpairs : (entries.map Prod.fst).Pairwise fun a b => order a b = .lt :=
    List.pairwise_map.2 h
  exact List.pairwise_map.1 (hpairs.sublist hkeys)

/-- An entry between the smaller and the greater keys keeps a list ascending. -/
theorem Ascending.insert [Std.OrientedCmp order] (h : Ascending order (front ++ back))
    (hfront : ∀ e ∈ front, order key e.1 = .gt) (hback : ∀ e ∈ back, order key e.1 = .lt)
    (value : V) : Ascending order (front ++ (key, value) :: back) := by
  obtain ⟨hascending, hascending', hcross⟩ := List.pairwise_append.1 h
  refine List.pairwise_append.2 ⟨hascending, List.pairwise_cons.2 ⟨hback, hascending'⟩, ?_⟩
  intro a ha b hb
  rcases List.mem_cons.1 hb with rfl | hb
  · exact Std.OrientedCmp.lt_of_gt (hfront a ha)
  · exact hcross a ha b hb

/-- Along an ascending list, the answers to a key are first `gt`, then at most once `eq`, and
then `lt`. -/
theorem Ascending.ranked [Std.TransCmp order] (h : Ascending order entries) (key : K) :
    Tree.Ranked (fun entry : K × V => order key entry.1) entries := by
  refine h.imp fun {a b} hab => ?_
  -- a key that is not behind the first entry is before the second one
  by_cases ha : order key a.1 = .gt
  · exact .inl ha
  · exact .inr (Std.TransCmp.lt_of_isLE_of_lt (Ordering.isLE_iff_ne_gt.2 ha) hab)

/-- An entry parts an ascending list. -/
theorem Ascending.parts [Std.TransCmp order] (h : Ascending order (front ++ entry :: back)) :
    (∀ other ∈ front, order entry.1 other.1 = .gt) ∧
      ∀ other ∈ back, order entry.1 other.1 = .lt := by
  have hranked := h.ranked entry.1
  have hself : order entry.1 entry.1 = .eq := Std.ReflCmp.compare_self
  refine ⟨hranked.before ?_, hranked.after ?_⟩
  · rw [hself]
    decide
  · rw [hself]
    decide

end SortedList

end RedBlack
