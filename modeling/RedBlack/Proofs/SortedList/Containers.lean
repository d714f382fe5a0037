import RedBlack.Proofs.Engine.Container
import RedBlack.Proofs.Engine.Runs
import RedBlack.Proofs.SortedList.Traversal

/-!
# Maps and Sets as Sorted Lists

What the operations of a map and those of a set do to a sorted list. Under a comparator that
follows a lawful order, a map and a set that start without entries give the answers of the list
and hold its entries after every operation (`SortedList.containers_conform`), and a cursor on any
container that was reached yields its entries one by one, whatever it removes on the way
(`SortedList.cursor_conforms`).
-/

namespace RedBlack

variable {σ τ K V : Type}

namespace SortedList

/-- Perform an operation of a map. -/
def performMap (order : Order K) (operation : OrderedMap.Operation τ K V)
    (entries : List (K × V)) : Option (Answer τ K V) × List (K × V) :=
  match operation with
  | .insert key value =>
    let (stored, entries) := insert order key value .overwrite entries
    (some (.stored stored), entries)
  | .remove key =>
    (some (.value ((orError .keyNotFound (find? order key entries)).map Prod.snd)),
      erase order key entries)
  | .removeEntry key =>
    (some (.entry (orError .keyNotFound (find? order key entries))), erase order key entries)
  | .shared operation => perform order operation entries

/-- Perform an operation of a set. -/
def performSet (order : Order K) (operation : OrderedSet.Operation τ K)
    (entries : List (K × Unit)) : Option (Answer τ K Unit) × List (K × Unit) :=
  match operation with
  | .insert key =>
    let (stored, entries) := insert order key () .reject entries
    (some (.outcome (stored.map fun _ => ())), entries)
  | .remove key =>
    (some (.outcome ((orError .keyNotFound (find? order key entries)).map fun _ => ())),
      erase order key entries)
  | .take key =>
    (some (.key ((orError .keyNotFound (find? order key entries)).map Prod.fst)),
      erase order key entries)
  | .shared operation => perform order operation entries

/-- The answer and the entries that were seen after an action are those of the list, as far as
the list determines them, and the list is ascending. -/
def Matches {B : Type} (order : Order K) (observed : B × List (K × V))
    (expected : Option B × List (K × V)) : Prop :=
  (∀ answer ∈ expected.1, observed.1 = answer) ∧ observed.2 = expected.2 ∧
    Ascending order expected.2

/-- Whatever is done with a new container, as long as storage can grow, every answer and all
entries after it are those of the list. -/
def Describes {A : Type} (order : Order K)
    (refer : A → List (K × V) → Option (Answer τ K V) × List (K × V))
    (perform : A → EngineM σ K V (Answer τ K V)) : Prop :=
  ∀ (room : Room) (capacity : Nat) (arena : Arena K V) (memory : σ) (actions : List A),
    Arena.withCapacity room capacity = .ok arena →
    ∃ observed context,
      Engine.run (Engine.observe perform) actions (.ofArena arena memory) =
        .ok observed context ∧
      ((∀ answer ∈ observed.map Prod.fst, ¬answer.StorageRefused) →
        List.Forall₂ (Matches order) observed (run refer actions []))

variable {order : Order K} {comparator : Comparator σ K} {snapshot : Snapshot σ K V}
  {entries : List (K × V)}

/-! ## Single operations -/

/-- An action does to a container what it does to the list, unless storage cannot grow; then the
entries stay. -/
def ConformsOrRefuses (order : Order K) (result : Answer τ K V × Snapshot σ K V)
    (expected : Option (Answer τ K V) × List (K × V)) (entries : List (K × V)) : Prop :=
  result.1.StorageRefused ∧ Agrees order result.2 entries ∨ Conforms order result expected

section

variable [Std.TransCmp order] (hfollows : comparator.Follows order)

include hfollows

/-- An operation does to a container what it does to the list. -/
theorem Agrees.perform (h : Agrees order snapshot entries) (operation : Operation τ K V) :
    ConformsOrRefuses order (snapshot.perform comparator operation)
      (SortedList.perform order operation entries) entries := by
  cases operation with
  | insert key value policy =>
    rcases h.insert hfollows key value policy with ⟨hfailed, hsame⟩ | ⟨hstored, hagrees⟩
    · exact .inl ⟨.inl (congrArg Answer.stored hfailed), hsame⟩
    · exact .inr (.of_some (congrArg Answer.stored hstored) hagrees)
  | get key => exact .inr (h.get hfollows)
  | update key change => exact .inr (h.update hfollows change)
  | contains key => exact .inr (h.contains hfollows)
  | remove key =>
    obtain ⟨hfound, hagrees⟩ := h.remove hfollows key
    exact .inr (.of_some (congrArg Answer.entry hfound) hagrees)
  | outermost side => exact .inr (h.outermost comparator side)
  | pop side => exact .inr (h.pop comparator side)
  | clear => exact .inr (.clear comparator snapshot entries)
  | length =>
    refine .inr (.of_some (congrArg Answer.number ?_) h)
    rw [← h.entries_eq, Snapshot.entries, List.length_map, Tree.length_toList]
  | isEmpty =>
    refine .inr (.of_some (congrArg Answer.flag ?_) h)
    rw [← h.entries_eq, Snapshot.entries, List.isEmpty_map, ← Tree.length_toList]
    cases snapshot.layout.tree.toList <;> rfl
  | height => exact .inr (.of_none h)
  | capacity => exact .inr (.of_none h)
  | entries => exact .inr (.of_some (congrArg Answer.entries h.entries_eq) h)
  | iterate view steps =>
    exact .inr (.of_some (congrArg (Answer.iterated ∘ Session.listSteps view steps) h.entries_eq) h)
  | traverse moves => exact .inr (h.traverse hfollows moves)
  | retain keep state => exact .inr (h.retain hfollows keep state)
  | copy => exact .inr (.of_some rfl (h.congr rfl))

/-- An operation of a map does to a container what it does to the list. -/
theorem Agrees.performMap (h : Agrees order snapshot entries)
    (operation : OrderedMap.Operation τ K V) :
    ConformsOrRefuses order (operation.follow comparator snapshot)
      (SortedList.performMap order operation entries) entries := by
  cases operation with
  | insert key value =>
    rcases h.insert hfollows key value .overwrite with ⟨hfailed, hsame⟩ | ⟨hstored, hagrees⟩
    · exact .inl ⟨.inl (congrArg Answer.stored hfailed), hsame⟩
    · exact .inr (.of_some (congrArg Answer.stored hstored) hagrees)
  | remove key =>
    obtain ⟨hfound, hagrees⟩ := h.remove hfollows key
    refine .inr (.of_some ?_ hagrees)
    simp only [OrderedMap.Operation.follow, hfound]
  | removeEntry key =>
    obtain ⟨hfound, hagrees⟩ := h.remove hfollows key
    exact .inr (.of_some (congrArg Answer.entry hfound) hagrees)
  | shared operation => exact h.perform hfollows operation

/-- An operation of a set does to a container what it does to the list. -/
theorem Agrees.performSet {snapshot : Snapshot σ K Unit} {entries : List (K × Unit)}
    (h : Agrees order snapshot entries) (operation : OrderedSet.Operation τ K) :
    ConformsOrRefuses order (operation.follow comparator snapshot)
      (SortedList.performSet order operation entries) entries := by
  cases operation with
  | insert key =>
    let answer : Except Error (Option Unit) → Answer τ K Unit :=
      fun stored => .outcome (stored.map fun _ => ())
    rcases h.insert hfollows key () .reject with ⟨hfailed, hsame⟩ | ⟨hstored, hagrees⟩
    · exact .inl ⟨.inr (congrArg answer hfailed), hsame⟩
    · exact .inr (.of_some (congrArg answer hstored) hagrees)
  | remove key =>
    obtain ⟨hfound, hagrees⟩ := h.remove hfollows key
    refine .inr (.of_some ?_ hagrees)
    simp only [OrderedSet.Operation.follow, hfound]
  | take key =>
    obtain ⟨hfound, hagrees⟩ := h.remove hfollows key
    refine .inr (.of_some ?_ hagrees)
    simp only [OrderedSet.Operation.follow, hfound]
  | shared operation => exact h.perform hfollows operation

end

/-! ## Runs -/

theorem Agrees.empty (order : Order K) (capacity : Nat) (room : Room) (memory : σ) :
    Agrees order (.empty capacity room memory : Snapshot σ K V) [] :=
  ⟨rfl, .nil⟩

section

variable {A : Type} {follow : A → Snapshot σ K V → Answer τ K V × Snapshot σ K V}
  {refer : A → List (K × V) → Option (Answer τ K V) × List (K × V)}
  (hstep : ∀ {snapshot entries}, Agrees order snapshot entries → ∀ action,
    ConformsOrRefuses order (follow action snapshot) (refer action entries) entries)

include hstep

/-- Actions that do one by one what they do to the list do so in sequence. -/
theorem Agrees.run (h : Agrees order snapshot entries) (actions : List A)
    (hroom : ∀ answer ∈ (snapshot.run (Snapshot.observe follow) actions).1.map Prod.fst,
      ¬answer.StorageRefused) :
    List.Forall₂ (Matches order) (snapshot.run (Snapshot.observe follow) actions).1
      (SortedList.run refer actions entries) := by
  induction actions generalizing snapshot entries with
  | nil => exact .nil
  | cons action actions ih =>
    obtain ⟨hgranted, hrest⟩ := List.forall_mem_cons.1 hroom
    -- storage has not refused anything, so the action has conformed
    rcases hstep h action with ⟨hrefused, -⟩ | ⟨hanswer, hagrees⟩
    · exact absurd hrefused hgranted
    · exact .cons ⟨hanswer, hagrees.entries_eq, hagrees.ascending⟩ (ih hagrees hrest)

/-- After actions that do to the list what they do to a container, if storage grows, the entries
are ascending in any case. -/
theorem Agrees.exists_run (h : Agrees order snapshot entries) (actions : List A) :
    ∃ entries, Agrees order (snapshot.run follow actions).2 entries := by
  induction actions generalizing snapshot entries with
  | nil => exact ⟨entries, h⟩
  | cons action actions ih =>
    rcases hstep h action with ⟨-, hsame⟩ | ⟨-, hagrees⟩
    · exact ih hsame
    · exact ih hagrees

end

/-- Actions that do to a container what they do to the list are described by the list. -/
theorem Describes.of_conforms {A : Type} {perform : A → EngineM σ K V (Answer τ K V)}
    {follow : A → Snapshot σ K V → Answer τ K V × Snapshot σ K V}
    {refer : A → List (K × V) → Option (Answer τ K V) × List (K × V)}
    (hperform : ∀ action before, Engine.Performs (perform action) before
      (follow action before).2 (follow action before).1)
    (hstep : ∀ {snapshot entries}, Agrees order snapshot entries → ∀ action,
      ConformsOrRefuses order (follow action snapshot) (refer action entries) entries) :
    Describes order refer perform := by
  intro room capacity arena memory actions hnew
  have hrun := Engine.Performs.run (Engine.Performs.observe hperform) actions
    (.empty arena.capacity room memory)
  obtain ⟨tree, hok, -⟩ := hrun.exists_eq_ok hnew
  exact ⟨_, _, hok, Agrees.run hstep (.empty order arena.capacity room memory) actions⟩

/-- Under a comparator that follows an order, every container that was reached has the entries of
an ascending list, whether or not storage was refused on the way. -/
theorem Agrees.exists_reached [Std.TransCmp order] (hfollows : comparator.Follows order)
    {room : Room} {capacity : Nat} {arena : Arena K V}
    (hnew : Arena.withCapacity room capacity = .ok arena) (memory : σ)
    (operations : List (Operation τ K V)) :
    ∃ (answers : List (Answer τ K V)) (snapshot : Snapshot σ K V) (tree : LinkedTree K V)
      (entries : List (K × V)),
      Engine.run (Operation.perform comparator) operations (.ofArena arena memory) =
        .ok answers (snapshot.around tree) ∧
      tree.LaidOut snapshot.layout ∧ Agrees order snapshot entries := by
  have hrun := Engine.Performs.run (Engine.Performs.operation comparator) operations
    (.empty arena.capacity room memory)
  obtain ⟨tree, hok, hlaid⟩ := hrun.exists_eq_ok hnew
  obtain ⟨entries, h⟩ := Agrees.exists_run (fun h => h.perform hfollows)
    (.empty order arena.capacity room memory) operations
  exact ⟨_, _, tree, entries, hok, hlaid, h⟩

/-- Under a comparator that follows an order, maps and sets are described by sorted lists. -/
theorem containers_conform [Std.TransCmp order] (hfollows : comparator.Follows order) :
    Describes order (performMap order)
        (OrderedMap.Operation.perform comparator :
          OrderedMap.Operation τ K V → EngineM σ K V (Answer τ K V)) ∧
      Describes order (performSet order)
        (OrderedSet.Operation.perform comparator :
          OrderedSet.Operation τ K → EngineM σ K Unit (Answer τ K Unit)) :=
  ⟨.of_conforms (.mapOperation comparator) fun h => h.performMap hfollows,
    .of_conforms (.setOperation comparator) fun h => h.performSet hfollows⟩

/-- A map in which numbers with the same tens are equal keys. -/
theorem containers_conform_tens :
    ∃ observed context,
      Engine.run (Engine.observe (OrderedMap.Operation.perform (.ofOrder (compareOn (· / 10)))))
        [.insert 12 1, .insert 25 2, .insert 17 3, .shared .clear,
          (.remove 29 : OrderedMap.Operation Unit Nat Nat)]
        (.ofArena (Arena.empty ⟨8, 24⟩) ()) = .ok observed context ∧
      List.Forall₂ (Matches (compareOn (· / 10))) observed
        (run (performMap (compareOn (· / 10)))
          [.insert 12 1, .insert 25 2, .insert 17 3, .shared .clear,
            (.remove 29 : OrderedMap.Operation Unit Nat Nat)] []) := by
  have hfollows : (Comparator.ofOrder (compareOn (· / 10)) : Comparator Unit Nat).Follows _ :=
    Comparator.follows_ofOrder (compareOn (· / 10))
  obtain ⟨hmap, -⟩ := containers_conform (τ := Unit) (V := Nat) hfollows
  obtain ⟨observed, context, hrun, hmatches⟩ := hmap ⟨8, 24⟩ 0 (Arena.empty ⟨8, 24⟩) () _ rfl
  refine ⟨observed, context, hrun, hmatches ?_⟩
  cases hrun
  simp [Answer.StorageRefused]

/-! ## Cursors -/

/-- The answers to the questions for a next entry. -/
def yields (outcomes : List (Cursor.Outcome K V)) : List (Option (K × V)) :=
  outcomes.filterMap fun
    | .yielded entry => some entry
    | _ => none

/-- If what is yielded after an entry are the entries behind it, then what is yielded with it
are all that were to come. -/
theorem Traversal.of_yield {traversal : Traversal K V} (change : V → V)
    {results : List (Option (K × V))}
    (hrest : ∀ (i : Nat) result, results[i]? = some result →
      result = (traversal.yield change).2.ahead[i]?)
    {i : Nat} {result : Option (K × V)}
    (h : ((traversal.yield change).1 :: results)[i]? = some result) :
    result = traversal.ahead[i]? := by
  rw [Traversal.yield] at h hrest
  cases hahead : traversal.ahead with
  | nil =>
    -- nothing is left to come, now or later
    rw [hahead] at h hrest
    cases i with
    | zero => exact (Option.some.inj h).symm
    | succ i =>
      have hnone := hrest i result h
      rwa [hahead] at hnone
  | cons entry ahead =>
    rw [hahead] at h hrest
    cases i with
    | zero => exact (Option.some.inj h).symm
    | succ i => exact hrest i result h

/-- A traversal yields the entries to come one by one, whatever is removed on the way. -/
theorem Traversal.yields_moves (traversal : Traversal K V) (moves : List (Cursor.Move V))
    {i : Nat} {result : Option (K × V)}
    (h : (yields (traversal.moves moves).1)[i]? = some result) :
    result = traversal.ahead[i]? := by
  induction moves generalizing traversal i result with
  | nil => cases h
  | cons move moves ih =>
    cases move with
    | next => exact of_yield id (fun _ _ => ih _) h
    | replace value => exact of_yield (fun _ => value) (fun _ _ => ih _) h
    | hasNext => exact ih _ h
    | remove =>
      -- a removal takes from what was passed, not from what is to come
      have hahead : traversal.remove.2.ahead = traversal.ahead := by
        rw [Traversal.remove]
        split <;> rfl
      exact hahead ▸ ih _ h

/-- Under a comparator that follows an order, a cursor on any container that was reached is a
traversal of its entries, which are yielded one by one, whatever is removed on the way. Since
the moves are arbitrary, the container holds the entries of the traversal after each of
them. -/
theorem cursor_conforms [Std.TransCmp order] (hfollows : comparator.Follows order)
    {room : Room} {capacity : Nat} {arena : Arena K V}
    (hnew : Arena.withCapacity room capacity = .ok arena) (memory : σ)
    (operations : List (Operation τ K V)) (moves : List (Cursor.Move V)) :
    ∃ answers context entries outcomes cursor after,
      Engine.run (Operation.perform comparator) operations (.ofArena arena memory) =
        .ok answers context ∧
      context.tree.entries = .ok entries ∧
      (Cursor.start >>= Cursor.moves comparator moves) context =
        .ok (outcomes, cursor) after ∧
      outcomes = ((Traversal.start entries).moves moves).1 ∧
      after.tree.entries = .ok ((Traversal.start entries).moves moves).2.entries ∧
      ∀ (i : Nat) result, (yields outcomes)[i]? = some result → result = entries[i]? := by
  have hrun := Engine.Performs.run (Engine.Performs.operation comparator) operations
    (.empty arena.capacity room memory)
  obtain ⟨tree, hok, hlaid⟩ := hrun.exists_eq_ok hnew
  -- whether or not storage was refused on the way, the entries are ascending
  obtain ⟨entries, h⟩ := Agrees.exists_run (fun h => h.perform hfollows)
    (.empty order arena.capacity room memory) operations
  -- the cursor starts at the end of the left spine
  have hplace := Tree.nil_under_spine .left
    ((Snapshot.empty arena.capacity room memory).run
      (fun operation => Snapshot.perform comparator operation) operations).2.layout.tree []
  obtain ⟨tree', hmoved, hlaid'⟩ :=
    (Engine.Performs.start _).bind (.moves comparator hplace moves) tree hlaid
  obtain ⟨houtcomes, hstands⟩ := h.stands_start.moves hfollows moves
  refine ⟨_, _, entries, _, _, _, hok, ?_, hmoved, houtcomes, ?_, ?_⟩
  · exact (LinkedTree.entries_eq_ok hlaid).trans (congrArg Except.ok h.entries_eq)
  · exact (LinkedTree.entries_eq_ok hlaid').trans (congrArg Except.ok hstands.agrees.entries_eq)
  · intro i result hresult
    rw [houtcomes] at hresult
    exact Traversal.yields_moves _ moves hresult

/-- A cursor that removes an entry in the middle, replaces a value, and goes on at the end. -/
theorem cursor_conforms_tens :
    ∃ answers context entries outcomes cursor after,
      Engine.run (Operation.perform (.ofOrder (compareOn (· / 10))))
        [.insert 12 1 .overwrite, .insert 35 2 .overwrite, .insert 21 3 .overwrite,
          (.insert 14 4 .overwrite : Operation Unit Nat Nat)]
        (.ofArena (Arena.empty ⟨8, 24⟩) ()) = .ok answers context ∧
      context.tree.entries = .ok entries ∧
      (Cursor.start >>= Cursor.moves (.ofOrder (compareOn (· / 10)))
        [.next, .next, .remove, .hasNext, .replace 5, .next, .remove, .remove]) context =
        .ok (outcomes, cursor) after ∧
      outcomes = ((Traversal.start entries).moves
        [.next, .next, .remove, .hasNext, .replace 5, .next, .remove, .remove]).1 ∧
      after.tree.entries = .ok ((Traversal.start entries).moves
        [.next, .next, .remove, .hasNext, .replace 5, .next, .remove, .remove]).2.entries ∧
      ∀ (i : Nat) result, (yields outcomes)[i]? = some result → result = entries[i]? :=
  cursor_conforms (Comparator.follows_ofOrder (compareOn (· / 10)))
    (rfl : Arena.withCapacity ⟨8, 24⟩ 0 = .ok (Arena.empty ⟨8, 24⟩)) () _ _

end SortedList

end RedBlack
