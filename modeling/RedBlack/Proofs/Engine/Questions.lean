import RedBlack.Proofs.Engine.Memories
import RedBlack.Proofs.Engine.Reachable
import RedBlack.Proofs.Tree.Height

/-!
# Questions to Comparators

Every question that an operation asks its comparator, in order, whatever the answers are
(`Engine.questions_of_operations`). Whoever looks for a key asks about it and the keys of the
nodes on one way down from the root, the key always first, and stops at the first equal one. A
cursor that has removed an entry asks the same about its key, in the tree that is left, and goes
right at an equal one. Nothing else asks anything.

* `LinkedTree.Inquiry` — the questions on a way down along the links, with the answers.
* `Tree.inquire` — the same as a function on trees; `seek` and `trail` ask just that
  (`Tree.seek_recording`, `Tree.trail_recording`).
* `Inquires` — what a recording comparator has been asked between two moments.
-/

namespace RedBlack

open RedBlack.Tree (Frame Path)

variable {σ τ K V : Type}

/-- The first answer, and those to the other questions. -/
theorem Comparator.askAll_cons {comparator : Comparator σ K} {a b : K} {answer : Ordering}
    {memory between after : σ} {questions : List (K × K)} {answers : List Ordering}
    (hfirst : comparator a b memory = (answer, between))
    (hrest : comparator.askAll questions between = (answers, after)) :
    comparator.askAll ((a, b) :: questions) memory = (answer :: answers, after) := by
  have hask : comparator.askAll ((a, b) :: questions) memory =
      ((comparator a b memory).1 :: (comparator.askAll questions (comparator a b memory).2).1,
        (comparator.askAll questions (comparator a b memory).2).2) := rfl
  rw [hask, hfirst, hrest]

/-! ## Ways down -/

/-- A question about some key: the node at which it was asked, the key stored there, and the
answer. -/
structure Question (K : Type) where
  /-- The node. -/
  slot : SlotId
  /-- The key stored there. -/
  stored : K
  /-- The answer. -/
  answer : Ordering

/-- The arguments of the comparator when it was asked about a key. -/
def Question.arguments (key : K) (question : Question K) : K × K :=
  (key, question.stored)

/-- Where a lookup goes on after an answer: it stops at an equal key. -/
def lookupTurn : Ordering → Option Side
  | .lt => some .left
  | .eq => none
  | .gt => some .right

/-- Where a cursor goes on after an answer: it passes an equal key on the right. -/
def resumeTurn : Ordering → Option Side
  | .lt => some .left
  | .eq => some .right
  | .gt => some .right

/-- The questions on the way down from a link, which ends at a missing link or at an answer after
which there is no way on. -/
inductive LinkedTree.Inquiry (linked : LinkedTree K V) (turn : Ordering → Option Side) :
    Link → List (Question K) → Prop
  /-- There is nothing to ask at a missing link. -/
  | missing : linked.Inquiry turn none []
  /-- The answer ends the way. -/
  | stop {id : SlotId} {node : Node K V} {answer : Ordering} :
      linked.arena.node? id = some node → turn answer = none →
        linked.Inquiry turn (some id) [⟨id, node.key, answer⟩]
  /-- The answer sends the way to a child. -/
  | turn {id : SlotId} {node : Node K V} {answer : Ordering} {side : Side}
      {way : List (Question K)} :
      linked.arena.node? id = some node → turn answer = some side →
        linked.Inquiry turn (node.child side) way →
          linked.Inquiry turn (some id) (⟨id, node.key, answer⟩ :: way)

/-- Between two moments, a recording comparator was asked about a key on one way down from the
root, and nothing else. -/
structure Inquires (comparator : Comparator σ K) (turn : Ordering → Option Side) (key : K)
    (linked : LinkedTree K V) (before after : Record σ K) (way : List (Question K)) : Prop where
  /-- The nodes lie on one way down from the root, and each answer says where it goes on. -/
  inquiry : linked.Inquiry turn linked.root way
  /-- The key is compared with the keys of these nodes, as the first argument. -/
  questions : after.questions = before.questions ++ way.map (Question.arguments key)
  /-- The answers are those of the comparator. -/
  answers : comparator.askAll (way.map (Question.arguments key)) before.memory =
    (way.map Question.answer, after.memory)
  /-- No node comes twice. -/
  nodup : (way.map Question.slot).Nodup
  /-- There are at most as many questions as the tree has levels. -/
  height : ∃ height, linked.height = .ok height ∧ way.length ≤ height
  /-- There are at most twice as many questions as the logarithm of the number of places. -/
  size : 2 ^ way.length ≤ (linked.size + 1) ^ 2

/-! ## Asking on trees -/

namespace Tree

section

variable (comparator : Comparator σ K) (key : K) (turn : Ordering → Option Side)

/-- The questions on the way down a tree, and the memory afterwards. -/
def inquire : Tree (Cell K V) → σ → List (Question K) × σ
  | nil, memory => ([], memory)
  | node _ left cell right, memory =>
    let (answer, memory) := comparator key cell.key memory
    match turn answer with
    | none => ([⟨cell.slot, cell.key, answer⟩], memory)
    | some .left =>
      let (way, memory) := inquire left memory
      (⟨cell.slot, cell.key, answer⟩ :: way, memory)
    | some .right =>
      let (way, memory) := inquire right memory
      (⟨cell.slot, cell.key, answer⟩ :: way, memory)

end

variable {comparator : Comparator σ K} {key : K} {turn : Ordering → Option Side}

/-- What holds at a missing link and where a way ends, and of a node if it holds of the child on
which the way goes on, holds of every way down. -/
theorem inquire_induction {motive : Tree (Cell K V) → σ → List (Question K) × σ → Prop}
    (missing : ∀ memory, motive nil memory ([], memory))
    (stops : ∀ (color : Color) (left : Tree (Cell K V)) (cell : Cell K V)
      (right : Tree (Cell K V)) (memory : σ) (answer : Ordering) (after : σ),
      comparator key cell.key memory = (answer, after) → turn answer = none →
        motive (node color left cell right) memory ([⟨cell.slot, cell.key, answer⟩], after))
    (turns : ∀ (frame : Frame (Cell K V)) (child : Tree (Cell K V)) (memory : σ)
      (answer : Ordering) (after : σ) (way : List (Question K)) (last : σ),
      comparator key frame.entry.key memory = (answer, after) → turn answer = some frame.side →
        motive child after (way, last) →
          motive (frame.close child) memory
            (⟨frame.entry.slot, frame.entry.key, answer⟩ :: way, last))
    (tree : Tree (Cell K V)) (memory : σ) :
    motive tree memory (tree.inquire comparator key turn memory) := by
  induction tree generalizing memory with
  | nil => exact missing memory
  | node color left cell right ihl ihr =>
    rcases hask : comparator key cell.key memory with ⟨answer, after⟩
    rcases hturn : turn answer with _ | side
    · simp only [inquire, hask, hturn]
      exact stops color left cell right memory answer after hask hturn
    cases side with
    | left =>
      simp only [inquire, hask, hturn]
      exact turns ⟨.left, color, cell, right⟩ left memory answer after _ _ hask hturn (ihl after)
    | right =>
      simp only [inquire, hask, hturn]
      exact turns ⟨.right, color, cell, left⟩ right memory answer after _ _ hask hturn (ihr after)

/-- The questions lead down along the links of a stored tree. -/
theorem inquiry_inquire {linked : LinkedTree K V} {parent : Link} {tree : Tree (Cell K V)}
    (hstores : linked.arena.Stores parent tree) (memory : σ) :
    linked.Inquiry turn tree.link (tree.inquire comparator key turn memory).1 := by
  refine inquire_induction (motive := fun tree _ result => ∀ parent,
    linked.arena.Stores parent tree → linked.Inquiry turn tree.link result.1) ?_ ?_ ?_ tree memory
    parent hstores
  · intro _ _ _
    exact .missing
  · rintro color left cell right _ answer _ - hturn parent ⟨hnode, -⟩
    exact .stop hnode hturn
  · intro frame child _ answer _ way _ _ hturn hway parent hstores
    obtain ⟨hnode, hchild, -⟩ := Arena.Stores.close_iff.1 hstores
    rw [Frame.link_close, ← frame.key_node child.link parent]
    refine .turn hnode hturn ?_
    rw [Frame.child_node]
    exact hway _ hchild

/-- The answers are those that the comparator gives to all these questions in order. -/
theorem askAll_inquire (tree : Tree (Cell K V)) (memory : σ) :
    comparator.askAll
        ((tree.inquire comparator key turn memory).1.map (Question.arguments key)) memory =
      ((tree.inquire comparator key turn memory).1.map Question.answer,
        (tree.inquire comparator key turn memory).2) := by
  refine inquire_induction (motive := fun _ memory result =>
    comparator.askAll (result.1.map (Question.arguments key)) memory =
      (result.1.map Question.answer, result.2)) ?_ ?_ ?_ tree memory
  · intro _
    rfl
  · intro _ _ cell _ memory answer after hask _
    exact Comparator.askAll_cons hask rfl
  · intro frame _ memory answer after way last hask _ hway
    exact Comparator.askAll_cons hask hway

/-- There is at most one question on each level. -/
theorem length_inquire_le (tree : Tree (Cell K V)) (memory : σ) :
    (tree.inquire comparator key turn memory).1.length ≤ tree.height := by
  refine inquire_induction (motive := fun tree _ result => result.1.length ≤ tree.height)
    ?_ ?_ ?_ tree memory
  · intro _
    exact Nat.zero_le _
  · intro _ _ _ _ _ _ _ _ _
    exact Nat.succ_le_succ (Nat.zero_le _)
  · intro frame child _ _ _ way _ _ _ hway
    rw [Frame.close, height_join]
    exact Nat.succ_le_succ (Nat.le_trans hway (Nat.le_max_left _ _))

/-- The questions are asked at nodes of the tree, and at none of them twice. -/
theorem slots_inquire (tree : Tree (Cell K V)) (memory : σ) :
    (tree.inquire comparator key turn memory).1.map Question.slot ⊆ tree.slots ∧
      (tree.slots.Nodup →
        ((tree.inquire comparator key turn memory).1.map Question.slot).Nodup) := by
  refine inquire_induction (motive := fun tree _ result =>
    result.1.map Question.slot ⊆ tree.slots ∧
      (tree.slots.Nodup → (result.1.map Question.slot).Nodup)) ?_ ?_ ?_ tree memory
  · intro _
    exact ⟨List.Subset.refl _, fun _ => List.nodup_nil⟩
  · intro color left cell right _ _ _ _ _
    refine ⟨List.cons_subset.2 ⟨mem_slots_of_link rfl, List.nil_subset _⟩, fun _ => ?_⟩
    exact List.nodup_singleton _
  · rintro frame child _ _ _ way _ _ _ ⟨hsubset, hnodup⟩
    refine ⟨List.cons_subset.2 ⟨mem_slots_close.2 (.inl rfl), fun id hid => ?_⟩, fun hclose => ?_⟩
    · exact mem_slots_close.2 (.inr (.inr (hsubset hid)))
    -- the way goes on below the node, where its slot does not come again
    · obtain ⟨-, hframe, -, hchild, -⟩ := nodup_slots_close.1 hclose
      exact List.nodup_cons.2 ⟨fun hmem => hframe (hsubset hmem), hnodup hchild⟩

/-- A lookup with a recording comparator asks these questions. -/
theorem seek_recording (tree : Tree (Cell K V)) (path : Path (Cell K V)) (record : Record σ K) :
    (tree.seek (comparator.recording.probe key) path record).2 =
      { memory := (tree.inquire comparator key lookupTurn record.memory).2
        questions := record.questions ++
          (tree.inquire comparator key lookupTurn record.memory).1.map
            (Question.arguments key) } := by
  induction tree generalizing path record with
  | nil => simp [seek, inquire]
  | node color left cell right ihl ihr =>
    rcases hask : comparator key cell.key record.memory with ⟨answer, after⟩
    have hrecord : comparator.recording.probe key cell record =
        (answer, ⟨after, record.questions.push (key, cell.key)⟩) := by
      simp only [Comparator.probe, Comparator.recording, hask]
    cases answer with
    | lt => simp [seek, inquire, hask, hrecord, lookupTurn, ihl, Question.arguments]
    | eq => simp [seek, inquire, hask, hrecord, lookupTurn, Question.arguments]
    | gt => simp [seek, inquire, hask, hrecord, lookupTurn, ihr, Question.arguments]

/-- A cursor that goes on with a recording comparator asks these questions. -/
theorem trail_recording (tree : Tree (Cell K V)) (path : Path (Cell K V)) (record : Record σ K) :
    (tree.trail (comparator.recording.probe key) path record).2 =
      { memory := (tree.inquire comparator key resumeTurn record.memory).2
        questions := record.questions ++
          (tree.inquire comparator key resumeTurn record.memory).1.map
            (Question.arguments key) } := by
  induction tree generalizing path record with
  | nil => simp [trail, inquire]
  | node color left cell right ihl ihr =>
    rcases hask : comparator key cell.key record.memory with ⟨answer, after⟩
    have hrecord : comparator.recording.probe key cell record =
        (answer, ⟨after, record.questions.push (key, cell.key)⟩) := by
      simp only [Comparator.probe, Comparator.recording, hask]
    cases answer with
    | lt => simp [trail, inquire, hask, hrecord, resumeTurn, ihl, Question.arguments]
    | eq => simp [trail, inquire, hask, hrecord, resumeTurn, ihr, Question.arguments]
    | gt => simp [trail, inquire, hask, hrecord, resumeTurn, ihr, Question.arguments]

end Tree

/-- The questions on a way down a tree that is laid out in order. -/
theorem LinkedTree.LaidOut.exists_inquires {linked : LinkedTree K V} {layout : Layout K V}
    (h : linked.LaidOut layout) (comparator : Comparator σ K) (turn : Ordering → Option Side)
    (key : K) {before after : Record σ K}
    (hafter : after =
      { memory := (layout.tree.inquire comparator key turn before.memory).2
        questions := before.questions ++
          (layout.tree.inquire comparator key turn before.memory).1.map
            (Question.arguments key) }) :
    ∃ way, Inquires comparator turn key linked before after way := by
  subst hafter
  obtain ⟨n, hbalanced⟩ := h.balanced
  have hlength : (layout.tree.inquire comparator key turn before.memory).1.length ≤
      layout.tree.height := Tree.length_inquire_le _ _
  refine ⟨_, ?_, rfl, Tree.askAll_inquire _ _, (Tree.slots_inquire _ _).2 h.depicts.nodup,
    ⟨_, h.height_eq_ok, hlength⟩, ?_⟩
  · rw [h.shows.1]
    exact Tree.inquiry_inquire h.shows.2 before.memory
  · rw [h.size]
    calc 2 ^ (layout.tree.inquire comparator key turn before.memory).1.length
        ≤ 2 ^ layout.tree.height := Nat.pow_le_pow_right (by decide) hlength
      _ ≤ (layout.tree.size + 1) ^ 2 := hbalanced.two_pow_height_le

/-! ## Operations -/

/-- The key that an operation looks up, if there is one. -/
def Operation.key? : Operation τ K V → Option K
  | insert key _ _ => some key
  | get key => some key
  | update key _ => some key
  | contains key => some key
  | remove key => some key
  | _ => none

/-- A use of a cursor that removes nothing. -/
def Cursor.Move.Silent : Cursor.Move V → Prop
  | remove => False
  | _ => True

/-- An operation that looks up no key and removes nothing with a cursor. -/
def Operation.Silent : Operation τ K V → Prop
  | outermost _ => True
  | pop _ => True
  | clear => True
  | length => True
  | isEmpty => True
  | height => True
  | capacity => True
  | entries => True
  | iterate _ _ => True
  | traverse moves => ∀ move ∈ moves, move.Silent
  | copy => True
  | _ => False

/-- The key that an operation on a map looks up, if there is one. -/
def OrderedMap.Operation.key? : OrderedMap.Operation τ K V → Option K
  | insert key _ => some key
  | remove key => some key
  | removeEntry key => some key
  | shared operation => operation.key?

/-- An operation on a map that asks nothing. -/
def OrderedMap.Operation.Silent : OrderedMap.Operation τ K V → Prop
  | shared operation => operation.Silent
  | _ => False

/-- The key that an operation on a set looks up, if there is one. -/
def OrderedSet.Operation.key? : OrderedSet.Operation τ K → Option K
  | insert key => some key
  | remove key => some key
  | take key => some key
  | shared operation => operation.key?

/-- An operation on a set that asks nothing. -/
def OrderedSet.Operation.Silent : OrderedSet.Operation τ K → Prop
  | shared operation => operation.Silent
  | _ => False

namespace Snapshot

variable {comparator : Comparator σ K} {snapshot : Snapshot σ K V} {key : K}

/-- Storing asks nothing after the lookup. -/
theorem memory_insert (value : V) (policy : DuplicatePolicy) :
    (snapshot.insert comparator key value policy).2.memory =
      (snapshot.seek comparator key).2.memory := by
  rw [insert]
  rcases snapshot.seek comparator key with ⟨⟨_ | ⟨color, left, cell, right⟩, path⟩, after⟩
  · simp only [insertAt]
    rcases after.layout.insert path key value with ⟨⟨_ | _, events⟩, layout⟩ <;> rfl
  · cases policy <;> rfl

/-- Removing asks nothing after the lookup. -/
theorem memory_remove :
    (snapshot.remove comparator key).2.memory = (snapshot.seek comparator key).2.memory := by
  rw [remove]
  rcases snapshot.seek comparator key with ⟨⟨_ | ⟨color, left, cell, right⟩, path⟩, after⟩
  · rfl
  · rfl

/-- An operation on a key asks what the lookup asks. -/
theorem memory_perform {operation : Operation τ K V} (h : operation.key? = some key) :
    (snapshot.perform comparator operation).2.memory =
      (snapshot.seek comparator key).2.memory := by
  cases operation <;> cases h
  case insert value policy => exact memory_insert value policy
  case remove => exact memory_remove
  all_goals
    simp only [perform, get, update, contains]
    rcases snapshot.seek comparator key with ⟨⟨_ | ⟨color, left, cell, right⟩, path⟩, after⟩
    · rfl
    · rfl

/-- Without a removal, a cursor asks nothing. -/
theorem memory_move (place : Place K V) {move : Cursor.Move V} (h : move.Silent) :
    (snapshot.move comparator place move).2.2.memory = snapshot.memory := by
  cases move with
  | next => rfl
  | replace value =>
    rw [Snapshot.move, nextReplacing]
    rcases Path.climb .left place.path .nil with _ | ⟨below, frame, up⟩ <;> rfl
  | hasNext => rfl
  | remove => cases h

theorem memory_moves (place : Place K V) {moves : List (Cursor.Move V)}
    (h : ∀ move ∈ moves, move.Silent) :
    (snapshot.moves comparator place moves).2.2.memory = snapshot.memory := by
  induction moves generalizing snapshot place with
  | nil => rfl
  | cons move moves ih =>
    obtain ⟨hmove, hmoves⟩ := List.forall_mem_cons.1 h
    exact (ih _ hmoves).trans (memory_move place hmove)

/-- A silent operation asks nothing. -/
theorem memory_perform_of_silent {operation : Operation τ K V} (h : operation.Silent) :
    (snapshot.perform comparator operation).2.memory = snapshot.memory := by
  cases operation with
  | pop side =>
    simp only [perform, pop]
    rcases snapshot.layout.tree.spine side [] with _ | ⟨frame, path⟩ <;> rfl
  | traverse moves => exact memory_moves _ h
  | insert key value policy => cases h
  | get key => cases h
  | update key change => cases h
  | contains key => cases h
  | remove key => cases h
  | retain keep state => cases h
  | _ => rfl

/-- A cursor that has nothing to remove asks nothing. -/
theorem memory_removeAt_of_error {place : Place K V} {error : Error}
    (h : (snapshot.removeAt comparator place).1 = .error error) :
    (snapshot.removeAt comparator place).2.2.memory = snapshot.memory := by
  rw [removeAt] at h ⊢
  rcases hlast : place.last? with _ | ⟨below, frame, up⟩
  · rfl
  · simp only [hlast] at h
    cases h

/-- A cursor that removes an entry asks what the search for its place asks in the new tree. -/
theorem memory_removeAt {place : Place K V} {entry : K × V}
    (h : (snapshot.removeAt comparator place).1 = .ok entry) :
    (snapshot.removeAt comparator place).2.2.memory =
      ((snapshot.removeAt comparator place).2.2.layout.tree.trail (comparator.probe entry.1) []
        snapshot.memory).2 := by
  rw [removeAt] at h ⊢
  rcases hlast : place.last? with _ | ⟨below, frame, up⟩
  · simp only [hlast] at h
    cases h
  · simp only [hlast] at h ⊢
    cases h
    rfl

end Snapshot

namespace Engine

/-- An action gives an answer, and with a recording comparator the same one. If it looks up a
key, it asks about this key on one way down the tree before it; if it is silent, it asks
nothing. -/
def AsksAbout {α : Type} (key? : Option K) (silent : Prop) (comparator : Comparator σ K)
    (recorded : EngineM (Record σ K) K V α) (action : EngineM σ K V α)
    (context : Context (Record σ K) K V) : Prop :=
  ∃ answer after, recorded context = .ok answer after ∧
    action (context.mapMemory Record.memory) = .ok answer (after.mapMemory Record.memory) ∧
    (∀ key ∈ key?, ∃ way, Inquires comparator lookupTurn key context.tree context.memory
      after.memory way) ∧
    (silent → after.memory = context.memory)

end Engine

/-- What a use of a cursor asks, by its outcome: after a removal, about the removed key on one
way down the tree that is left, and otherwise nothing. -/
inductive Cursor.Asks (comparator : Comparator σ K) (before after : Context (Record σ K) K V) :
    Cursor.Outcome K V → Prop
  /-- An entry was removed. -/
  | removal (entry : K × V) (way : List (Question K)) :
      Inquires comparator resumeTurn entry.1 after.tree before.memory after.memory way →
        Asks comparator before after (.removed (.ok entry))
  /-- Nothing was removed. -/
  | silence (outcome : Cursor.Outcome K V) :
      (∀ entry, outcome ≠ .removed (.ok entry)) → after.memory = before.memory →
        Asks comparator before after outcome

namespace Engine

section

variable {context : Context (Record σ K) K V} {layout : Layout K V}
  (hlaid : context.tree.LaidOut layout) (comparator : Comparator σ K)

include hlaid

/-- What an operation that is followed on snapshots asks. -/
theorem asksAbout_of_performs {α : Type} {recorded : EngineM (Record σ K) K V α}
    {action : EngineM σ K V α} {after : Snapshot (Record σ K) K V} {answer : α} {key? : Option K}
    {silent : Prop} (hperforms : Performs recorded (context.snapshot layout) after answer)
    (hcarries : Carries Record.memory recorded action)
    (hkey : ∀ key ∈ key?, after.memory =
      ((context.snapshot layout).seek comparator.recording key).2.memory)
    (hsilent : silent → after.memory = context.memory) :
    AsksAbout key? silent comparator recorded action context := by
  obtain ⟨tree, hok, -⟩ := hperforms.of_context hlaid
  refine ⟨_, _, hok, hcarries.eq_ok hok, fun key h => ?_, hsilent⟩
  exact hlaid.exists_inquires comparator lookupTurn key
    ((hkey key h).trans (Tree.seek_recording _ _ _))

/-- What an operation asks. -/
theorem asksAbout_operation (operation : Operation τ K V) :
    AsksAbout operation.key? operation.Silent comparator
      (operation.perform comparator.recording) (operation.perform comparator) context :=
  asksAbout_of_performs hlaid comparator (.operation comparator.recording operation _)
    (.operation comparator.carries_recording operation) (fun _ => Snapshot.memory_perform)
    Snapshot.memory_perform_of_silent

/-- What one more use of a cursor asks. -/
theorem asks_move {place : Place K V} (hplace : Tree.nil.under place.path = layout.tree)
    (move : Cursor.Move V) :
    ∃ outcome next after,
      place.cursor.move comparator.recording move context = .ok (outcome, next) after ∧
        place.cursor.move comparator move (context.mapMemory Record.memory) =
          .ok (outcome, next) (after.mapMemory Record.memory) ∧
        Cursor.Asks comparator context after outcome := by
  have hmove : Performs (place.cursor.move comparator.recording move) (context.snapshot layout)
      _ _ := .move comparator.recording hplace move
  obtain ⟨tree, hok, hafter⟩ := hmove.of_context hlaid
  refine ⟨_, _, _, hok, (Carries.move comparator.carries_recording _ move).eq_ok hok, ?_⟩
  cases move with
  | remove =>
    rcases hremoved : ((context.snapshot layout).removeAt comparator.recording place).1 with
      error | entry
    · refine .silence _ (fun entry h => ?_) (Snapshot.memory_removeAt_of_error hremoved)
      cases hremoved.symm.trans (Cursor.Outcome.removed.inj h)
    · obtain ⟨way, hway⟩ := hafter.exists_inquires comparator resumeTurn entry.1
        ((Snapshot.memory_removeAt hremoved).trans (Tree.trail_recording _ _ _))
      have hasks : Cursor.Asks comparator context
          (((context.snapshot layout).removeAt comparator.recording place).2.2.around tree)
          (.removed (.ok entry)) := .removal entry way hway
      rw [← hremoved] at hasks
      exact hasks
  | next => exact .silence _ nofun rfl
  | replace value => exact .silence _ nofun (Snapshot.memory_move place trivial)
  | hasNext => exact .silence _ nofun rfl

end

/-- Whatever the comparator answers, and however it changes its mind: looking up, storing and
removing by key asks about this key and the keys of the nodes on one way down from the root,
never twice about the same node and at most once on each level, until the first equal one.
A cursor, wherever it stands, asks the same about the key that it has removed, in the tree that is
left, and goes on to the right at an equal one. Everything else asks nothing. -/
theorem questions_of_operations {mapContext : Context (Record σ K) K V}
    {setContext : Context (Record σ K) K Unit} (hmap : mapContext.tree.Reachable)
    (hset : setContext.tree.Reachable) (comparator : Comparator σ K) :
    (∀ operation : Operation τ K V, AsksAbout operation.key? operation.Silent comparator
      (operation.perform comparator.recording) (operation.perform comparator) mapContext) ∧
    (∀ operation : OrderedMap.Operation τ K V, AsksAbout operation.key? operation.Silent comparator
      (operation.perform comparator.recording) (operation.perform comparator) mapContext) ∧
    (∀ operation : OrderedSet.Operation τ K, AsksAbout operation.key? operation.Silent comparator
      (operation.perform comparator.recording) (operation.perform comparator) setContext) ∧
    ∀ moves, ∃ outcomes cursor between,
      (Cursor.start >>= Cursor.moves comparator.recording moves) mapContext =
        .ok (outcomes, cursor) between ∧
      (Cursor.start >>= Cursor.moves comparator moves) (mapContext.mapMemory Record.memory) =
        .ok (outcomes, cursor) (between.mapMemory Record.memory) ∧
      ∀ move, ∃ outcome next after,
        cursor.move comparator.recording move between = .ok (outcome, next) after ∧
        cursor.move comparator move (between.mapMemory Record.memory) =
          .ok (outcome, next) (after.mapMemory Record.memory) ∧
        Cursor.Asks comparator between after outcome := by
  obtain ⟨mapLayout, hmapLaid⟩ := hmap.exists_laidOut
  obtain ⟨setLayout, hsetLaid⟩ := hset.exists_laidOut
  have hcarries := comparator.carries_recording
  refine ⟨asksAbout_operation hmapLaid comparator, fun operation => ?_, fun operation => ?_,
    fun moves => ?_⟩
  · refine asksAbout_of_performs hmapLaid comparator (.mapOperation _ operation _)
      (.mapOperation hcarries operation) (fun key h => ?_) (fun h => ?_)
    · cases operation with
      | insert key value =>
        cases h
        exact Snapshot.memory_insert value .overwrite
      | remove key =>
        cases h
        exact Snapshot.memory_remove
      | removeEntry key =>
        cases h
        exact Snapshot.memory_remove
      | shared operation => exact Snapshot.memory_perform h
    · cases operation with
      | shared operation => exact Snapshot.memory_perform_of_silent h
      | _ => cases h
  · refine asksAbout_of_performs hsetLaid comparator (.setOperation _ operation _)
      (.setOperation hcarries operation) (fun key h => ?_) (fun h => ?_)
    · cases operation with
      | insert key =>
        cases h
        exact Snapshot.memory_insert () .reject
      | remove key =>
        cases h
        exact Snapshot.memory_remove
      | take key =>
        cases h
        exact Snapshot.memory_remove
      | shared operation => exact Snapshot.memory_perform h
    · cases operation with
      | shared operation => exact Snapshot.memory_perform_of_silent h
      | _ => cases h
  · obtain ⟨_, place, between, _, hbetween, hmid, hplace⟩ :=
      exists_place hmapLaid comparator.recording moves
    have hplain := Carries.start.bind fun cursor => Carries.moves hcarries cursor moves
    refine ⟨_, _, _, hbetween, hplain.eq_ok hbetween, fun move => ?_⟩
    exact asks_move hmid comparator hplace move

/-- What operations ask a comparator that has changed its mind before. -/
theorem questions_of_operations_flipping :
    ∃ answers mapContext answers' setContext,
      run (Operation.perform (Comparator.flipping 3 compare).recording)
        [.insert 4 40 .overwrite, .insert 2 20 .overwrite, .insert 6 60 .overwrite,
          .insert 1 10 .reject, (.insert 5 50 .overwrite : Operation Unit Nat Nat)]
        (.ofArena (Arena.empty ⟨8, 24⟩ : Arena Nat Nat) { memory := 0 }) = .ok answers mapContext ∧
      run (Operation.perform (Comparator.flipping 3 compare).recording)
        [.insert 4 () .reject, .insert 2 () .reject,
          (.insert 6 () .reject : Operation Unit Nat Unit)]
        (.ofArena (Arena.empty ⟨8, 24⟩ : Arena Nat Unit) { memory := 0 }) =
          .ok answers' setContext ∧
      AsksAbout (some 2) False (Comparator.flipping 3 compare)
        (return .entry (← OrderedMap.removeEntry (Comparator.flipping 3 compare).recording 2))
        (return .entry (← OrderedMap.removeEntry (Comparator.flipping 3 compare) 2) :
          EngineM Nat Nat Nat (Answer Unit Nat Nat)) mapContext ∧
      AsksAbout (some 6) False (Comparator.flipping 3 compare)
        (return .key (← OrderedSet.take (Comparator.flipping 3 compare).recording 6))
        (return .key (← OrderedSet.take (Comparator.flipping 3 compare) 6) :
          EngineM Nat Nat Unit (Answer Unit Nat Unit)) setContext ∧
      ∃ outcomes cursor between outcome next after,
        (Cursor.start >>= Cursor.moves (Comparator.flipping 3 compare).recording [.next, .next])
          mapContext = .ok (outcomes, cursor) between ∧
        cursor.move (Comparator.flipping 3 compare).recording .remove between =
          .ok (outcome, next) after ∧
        Cursor.Asks (Comparator.flipping 3 compare) between after outcome := by
  have hnew : Arena.withCapacity ⟨8, 24⟩ 0 = .ok (Arena.empty ⟨8, 24⟩ : Arena Nat Nat) := rfl
  have hnew' : Arena.withCapacity ⟨8, 24⟩ 0 = .ok (Arena.empty ⟨8, 24⟩ : Arena Nat Unit) := rfl
  obtain ⟨_, _, hrun, hmap, -⟩ :=
    exists_reachable_run hnew (Comparator.flipping 3 compare).recording _ _
  obtain ⟨_, _, hrun', hset, -⟩ :=
    exists_reachable_run hnew' (Comparator.flipping 3 compare).recording _ _
  obtain ⟨-, hmapAsks, hsetAsks, hcursor⟩ :=
    questions_of_operations (τ := Unit) hmap hset (Comparator.flipping 3 compare)
  obtain ⟨_, _, _, hmoved, -, hmove⟩ := hcursor [.next, .next]
  obtain ⟨_, _, _, hremoved, -, hasks⟩ := hmove .remove
  exact ⟨_, _, _, _, hrun, hrun', hmapAsks (.removeEntry 2), hsetAsks (.take 6), _, _, _, _, _, _,
    hmoved, hremoved, hasks⟩

end Engine

end RedBlack
