import RedBlack.Proofs.Engine.Runs
import RedBlack.Proofs.Tree.Mapping

/-!
# Slots in Use and Capacity

Node storage does not leak: the slots in use, occupied or vacant, are as many as there were
entries at the worst moment since the slots were last forgotten, and no more. The worst moments
are kept as `Watermarks` beside a run (`Engine.survey`), from the numbers of entries alone.

What an operation does to the layout is said once (`Operation.Settles`): an insertion may put an
entry into an allotted slot, clearing forgets the slots, a copy drops what is spare, and
everything else only moves slots to the free list. From this follow what the watermarks bound
(`Layout.Within`), after one operation and after a run, and which operations can open a slot
or grow the storage (`Engine.storage_within_watermarks`).
-/

namespace RedBlack

open RedBlack.Tree (Frame Path)

variable {σ τ K V : Type}

/-! ## Watermarks -/

/-- The greatest numbers of entries in the past of a container. -/
structure Watermarks where
  /-- The capacity that the container began with. -/
  initial : Nat
  /-- The most entries since the slots were last forgotten; a copy begins with the number of
  slots in use. -/
  recent : Nat
  /-- The most entries ever. -/
  greatest : Nat

/-- The watermarks of a new container. -/
def Watermarks.start (capacity : Nat) : Watermarks :=
  { initial := capacity, recent := 0, greatest := 0 }

/-- The watermarks when there are `size` entries. -/
def Watermarks.raise (marks : Watermarks) (size : Nat) : Watermarks :=
  { marks with recent := max marks.recent size, greatest := max marks.greatest size }

/-- The watermarks after an operation that has changed the number of entries from `before` to
`after`. Clearing a container without entries forgets nothing. -/
def Operation.mark (before after : Nat) (marks : Watermarks) : Operation τ K V → Watermarks
  | clear => if before = 0 then marks else { marks with recent := after }
  | copy => { initial := marks.recent, recent := marks.recent, greatest := after }
  | _ => marks.raise after

/-- Perform operations and keep the watermarks. -/
def Engine.survey (comparator : Comparator σ K) :
    List (Operation τ K V) → Watermarks → EngineM σ K V Watermarks
  | [], marks => return marks
  | operation :: operations, marks => do
    let before ← inspect fun tree => .ok tree.size
    let _ ← operation.perform comparator
    let after ← inspect fun tree => .ok tree.size
    Engine.survey comparator operations (operation.mark before after marks)

/-- What the watermarks say about the slots in use, the capacity, and the number of entries. -/
structure Watermarks.Bounds (marks : Watermarks) (used capacity size : Nat) : Prop where
  /-- The slots in use are the most that were needed at once. -/
  used_eq : used = marks.recent
  /-- The slots in use fit. -/
  used_le : used ≤ capacity
  /-- The entries are not more than ever before. -/
  size_le : size ≤ marks.greatest
  /-- Storage grows only to twice what was needed. -/
  capacity_le : capacity ≤ max (max marks.initial 4) (2 * marks.greatest)
  /-- Storage does not grow as long as all entries fit. -/
  capacity_eq : marks.greatest ≤ marks.initial → capacity = marks.initial

/-- What an operation may do to storage. -/
structure Operation.Stores (operation : Operation τ K V) (before after : LinkedTree K V) :
    Prop where
  /-- A slot is opened by an insertion that finds none vacant. -/
  opens : before.arena.slots.size < after.arena.slots.size →
    (∃ key value policy, operation = .insert key value policy) ∧
      ∀ id < before.arena.slots.size, ∃ node, before.arena.node? id = some node
  /-- Storage grows in an insertion that exceeds the capacity, and otherwise stays. -/
  grows : operation ≠ .copy → after.arena.capacity ≠ before.arena.capacity →
    (∃ key value policy, operation = .insert key value policy) ∧
      before.arena.capacity < after.size ∧ before.arena.capacity < after.arena.capacity
  /-- A copy has the same slots and room for no more. -/
  copies : operation = .copy →
    after.arena.slots.size = before.arena.slots.size ∧
      after.arena.capacity = before.arena.slots.size

/-! ## Layouts -/

namespace Layout

/-- The number of slots in use, occupied or vacant. -/
def used (layout : Layout K V) : Nat :=
  layout.tree.size + layout.vacated.length

/-- Nothing has happened to storage, except that some slots may have been vacated. -/
structure Thins (before after : Layout K V) : Prop where
  /-- The same slots are in use. -/
  used : after.used = before.used
  /-- No node was added. -/
  size_le : after.tree.size ≤ before.tree.size
  /-- The capacity is the same. -/
  capacity : after.capacity = before.capacity

/-- A node was put into an allotted slot. -/
structure Gains (before after : Layout K V) : Prop where
  /-- There is one more node. -/
  size : after.tree.size = before.tree.size + 1
  /-- Its slot was allotted. -/
  allot : ∃ id, Arena.allot before.tree.size before.vacated before.capacity before.room =
    .ok (id, after.vacated, after.capacity)

variable {before mid after layout : Layout K V} {color : Color} {left right : Tree (Cell K V)}
  {cell : Cell K V} {path : Path (Cell K V)}

namespace Thins

theorem refl (layout : Layout K V) : layout.Thins layout :=
  ⟨rfl, Nat.le_refl _, rfl⟩

theorem of_eq (h : after = before) : before.Thins after :=
  h ▸ refl before

theorem trans (h : before.Thins mid) (h' : mid.Thins after) : before.Thins after where
  used := h'.used.trans h.used
  size_le := Nat.le_trans h'.size_le h.size_le
  capacity := h'.capacity.trans h.capacity

/-- Other entries in the same nodes use the same slots. -/
theorem of_alike {tree : Tree (Cell K V)} (h : tree.Alike layout.tree) :
    layout.Thins { layout with tree } where
  used := congrArg (· + layout.vacated.length) h.size_eq
  size_le := Nat.le_of_eq h.size_eq
  capacity := rfl

/-- Erasing a node vacates its slot. -/
theorem erase (htree : (Tree.node color left cell right).under path = layout.tree) :
    layout.Thins (layout.erase color left cell right path).2 := by
  have hsize := Tree.size_erase color left cell right path
  rw [htree] at hsize
  refine ⟨?_, ?_, rfl⟩
  · simp only [Layout.erase, Layout.used, List.length_cons]
    omega
  · simp only [Layout.erase]
    omega

end Thins

namespace Gains

/-- Either a vacant slot is reused, or all slots are occupied and the storage fits one more. -/
theorem used_eq (h : before.Gains after) :
    (after.used = before.used ∧ after.capacity = before.capacity) ∨
      (before.vacated = [] ∧ after.used = before.used + 1 ∧
        Arena.fit before.capacity before.room (before.tree.size + 1) = .ok after.capacity) := by
  obtain ⟨hsize, id, hallot⟩ := h
  rw [Layout.used, Layout.used, hsize]
  cases hvacated : before.vacated with
  | cons first rest =>
    rw [hvacated, Arena.allot] at hallot
    injection hallot with hallot
    injection hallot with _ hallot
    injection hallot with hrest hcapacity
    refine .inl ⟨?_, hcapacity.symm⟩
    rw [← hrest, List.length_cons]
    omega
  | nil =>
    rw [hvacated, Arena.allot] at hallot
    rcases hfit : Arena.fit before.capacity before.room (before.tree.size + 1) with cause | grown
    · rw [hfit] at hallot
      cases hallot
    · rw [hfit] at hallot
      injection hallot with hallot
      injection hallot with _ hallot
      injection hallot with hrest hcapacity
      refine .inr ⟨rfl, ?_, congrArg Except.ok hcapacity⟩
      rw [← hrest, List.length_nil]

end Gains

/-- Storing an entry puts a node into an allotted slot, or changes nothing. -/
theorem gains_insert (htree : Tree.nil.under path = layout.tree) (key : K) (value : V) :
    (layout.insert path key value).2 = layout ∨ layout.Gains (layout.insert path key value).2 := by
  rw [insert]
  cases hallot : Arena.allot layout.tree.size layout.vacated layout.capacity layout.room with
  | error cause => exact .inl rfl
  | ok slot =>
    obtain ⟨id, vacated, capacity⟩ := slot
    refine .inr ⟨?_, id, hallot⟩
    rw [← htree]
    exact Tree.size_repairRed_leaf .red (⟨id, key, value⟩ : Cell K V) path

end Layout

/-- The watermarks bound what is in use in a layout. -/
def Layout.Within (layout : Layout K V) (marks : Watermarks) : Prop :=
  marks.Bounds layout.used layout.capacity layout.tree.size

/-- What an operation does to the layout, as far as storage is concerned. -/
def Operation.Settles (before after : Layout K V) : Operation τ K V → Prop
  | .insert _ _ _ => before.Thins after ∨ before.Gains after
  | .clear => after = before.clear.2
  | .copy => after = before.copy
  | _ => before.Thins after

/-! ## Snapshots -/

namespace Snapshot

variable {comparator : Comparator σ K} {key : K} {snapshot after : Snapshot σ K V}
  {path up : Path (Cell K V)} {below : Tree (Cell K V)} {frame : Frame (Cell K V)}

/-! ### Keys and positions -/

theorem thins_contains (comparator : Comparator σ K) (key : K) :
    snapshot.layout.Thins (snapshot.contains comparator key).2.layout := by
  rw [contains]
  rcases hseek : snapshot.seek comparator key with
    ⟨⟨_ | ⟨color, left, cell, right⟩, path⟩, after⟩
  all_goals exact .of_eq (of_seek_eq hseek).2

theorem thins_get (comparator : Comparator σ K) (key : K) :
    snapshot.layout.Thins (snapshot.get comparator key).2.layout := by
  rw [get]
  rcases hseek : snapshot.seek comparator key with
    ⟨⟨_ | ⟨color, left, cell, right⟩, path⟩, after⟩
  all_goals exact .of_eq (of_seek_eq hseek).2

/-- Putting another value into a node leaves storage as it is. -/
theorem thins_replace {color : Color} {left right : Tree (Cell K V)} {cell : Cell K V}
    (htree : (Tree.node color left cell right).under path = snapshot.layout.tree) (value : V) :
    snapshot.layout.Thins
      (snapshot.withTree
        ((Tree.node color left (cell.withValue value) right).under path)).layout := by
  apply Layout.Thins.of_alike
  rw [← htree]
  exact Tree.alike_under_replace left ⟨.left, color, cell, right⟩ (cell.withValue value) path

theorem thins_update (comparator : Comparator σ K) (key : K) (change : V → V) :
    snapshot.layout.Thins (snapshot.update comparator key change).2.layout := by
  rw [update]
  rcases hseek : snapshot.seek comparator key with
    ⟨⟨_ | ⟨color, left, cell, right⟩, path⟩, after⟩
  all_goals
    obtain ⟨htree, hlayout⟩ := of_seek_eq hseek
    rw [← hlayout]
  · exact .refl _
  · exact thins_replace htree _

/-- Storing an entry adds a node, or storage stays as it is. -/
theorem thins_or_gains_insert (comparator : Comparator σ K) (key : K) (value : V)
    (policy : DuplicatePolicy) :
    let after := (snapshot.insert comparator key value policy).2
    snapshot.layout.Thins after.layout ∨ snapshot.layout.Gains after.layout := by
  rw [insert]
  rcases hseek : snapshot.seek comparator key with
    ⟨⟨_ | ⟨color, left, cell, right⟩, path⟩, after⟩
  all_goals
    obtain ⟨htree, hlayout⟩ := of_seek_eq hseek
    rw [← hlayout]
  · have hinsert := Layout.gains_insert htree key value
    simp only [insertAt]
    rcases hstored : after.layout.insert path key value with ⟨⟨_ | _, events⟩, layout⟩
    all_goals
      rw [hstored] at hinsert
      exact hinsert.imp_left Layout.Thins.of_eq
  · cases policy with
    | overwrite => exact .inl (thins_replace htree value)
    | reject => exact .inl (.refl _)

/-- Taking a node out vacates its slot. -/
theorem thins_eraseFrame (htree : below.under (frame :: path) = snapshot.layout.tree) :
    snapshot.layout.Thins (snapshot.eraseFrame below frame path).2.layout := by
  rw [Tree.under_cons, Frame.close_eq_node] at htree
  exact .erase htree

theorem thins_remove (comparator : Comparator σ K) (key : K) :
    snapshot.layout.Thins (snapshot.remove comparator key).2.layout := by
  rw [remove]
  rcases hseek : snapshot.seek comparator key with
    ⟨⟨_ | ⟨color, left, cell, right⟩, path⟩, after⟩
  all_goals
    obtain ⟨htree, hlayout⟩ := of_seek_eq hseek
    rw [← hlayout]
  · exact .refl _
  · exact .erase htree

theorem thins_pop (side : Side) : snapshot.layout.Thins (snapshot.pop side).2.layout := by
  rw [pop]
  rcases hspine : snapshot.layout.tree.spine side [] with _ | ⟨frame, path⟩
  · exact .refl _
  · have htree : Tree.nil.under (frame :: path) = snapshot.layout.tree := by
      rw [← hspine, Tree.nil_under_spine, Tree.under_nil]
    exact thins_eraseFrame htree

/-! ### Cursors and filters -/

/-- Passing an entry, and perhaps putting another one in its place, leaves storage as it is. -/
theorem thins_pass (htree : Tree.nil.under path = snapshot.layout.tree)
    (hclimb : Path.climb .left path .nil = some (below, frame, up)) (cell : Cell K V) :
    snapshot.layout.Thins
      (snapshot.withTree (Tree.nil.under (Path.pass below frame cell up))).layout := by
  obtain ⟨hside, hunder⟩ := Path.of_climb_eq_some hclimb
  apply Layout.Thins.of_alike
  rw [← htree, hunder, Path.nil_under_pass cell hside]
  exact Tree.alike_under_replace below frame cell up

theorem thins_cut {place : Path (Cell K V)} {entry : K × V}
    (htree : below.under (frame :: up) = snapshot.layout.tree)
    (hcut : snapshot.cut comparator below frame up = ((entry, place), after)) :
    snapshot.layout.Thins after.layout := by
  have hafter : after = (snapshot.cut comparator below frame up).2 := by rw [hcut]
  rw [hafter]
  exact thins_eraseFrame htree

theorem thins_move {place : Place K V} (htree : Tree.nil.under place.path = snapshot.layout.tree)
    (move : Cursor.Move V) :
    snapshot.layout.Thins (snapshot.move comparator place move).2.2.layout := by
  cases move with
  | next => exact .refl _
  | replace value =>
    rw [Snapshot.move, nextReplacing]
    rcases hclimb : Path.climb .left place.path .nil with _ | ⟨below, frame, up⟩
    · exact .refl _
    · exact thins_pass htree hclimb _
  | hasNext => exact .refl _
  | remove =>
    rw [Snapshot.move, removeAt]
    rcases hlast : place.last? with _ | ⟨below, frame, up⟩
    · exact .refl _
    · have hnode := (Path.of_climb_eq_some (Place.climb_of_last? hlast)).2.symm.trans htree
      rcases hcut : snapshot.cut comparator below frame up with ⟨⟨entry, path⟩, after⟩
      simp only [hcut]
      exact thins_cut hnode hcut

theorem thins_moves {place : Place K V} (htree : Tree.nil.under place.path = snapshot.layout.tree)
    (moves : List (Cursor.Move V)) :
    snapshot.layout.Thins (snapshot.moves comparator place moves).2.2.layout := by
  induction moves generalizing snapshot place with
  | nil => exact .refl _
  | cons move moves ih => exact (thins_move htree move).trans (ih (nil_under_move htree move))

theorem thins_retain (comparator : Comparator σ K) (keep : K → V → StateM τ (Bool × V))
    (htree : Tree.nil.under path = snapshot.layout.tree) (state : τ) :
    snapshot.layout.Thins (snapshot.retain comparator keep path state).2.layout := by
  refine retain_induction comparator keep
    (motive := fun _ before _ result => before.layout.Thins result.2.layout) ?_ ?_ ?_ htree state
  · intro path snapshot state _
    exact .refl _
  · intro path snapshot state below frame up value state' result htree hclimb _ passed hrest
    exact (thins_pass htree hclimb _).trans hrest
  · intro path snapshot state below frame up value state' removed place after result htree hclimb
      _ cell visited hcut hrest
    have hnode : frame.sibling.under (⟨.right, frame.color, cell, below⟩ :: up) =
        visited.layout.tree := (Tree.nil_under_spine ..).symm
    exact (thins_pass htree hclimb cell).trans ((thins_cut hnode hcut).trans hrest)

/-! ### Operations -/

/-- Every operation does to storage what is said of it. -/
theorem settles_perform (comparator : Comparator σ K) (operation : Operation τ K V)
    (snapshot : Snapshot σ K V) :
    operation.Settles snapshot.layout (snapshot.perform comparator operation).2.layout := by
  have hstart := Place.nil_under_start snapshot.layout.tree
  cases operation with
  | insert key value policy => exact thins_or_gains_insert comparator key value policy
  | get key => exact thins_get comparator key
  | update key change => exact thins_update comparator key change
  | contains key => exact thins_contains comparator key
  | remove key => exact thins_remove comparator key
  | pop side => exact thins_pop side
  | clear => exact rfl
  | traverse moves => exact thins_moves hstart moves
  | retain keep state => exact thins_retain comparator keep hstart state
  | copy => exact rfl
  | _ => exact Layout.Thins.refl _

end Snapshot

/-! ## One operation -/

namespace Layout.Within

variable {marks : Watermarks} {before after : Layout K V}

theorem raise (hused : after.used = max marks.recent after.tree.size)
    (hfits : after.used ≤ after.capacity)
    (hcapacity : after.capacity ≤
      max (max marks.initial 4) (2 * max marks.greatest after.tree.size))
    (hinitial : max marks.greatest after.tree.size ≤ marks.initial →
      after.capacity = marks.initial) :
    after.Within (marks.raise after.tree.size) :=
  ⟨hused, hfits, Nat.le_max_right _ _, hcapacity, hinitial⟩

section

variable (h : before.Within marks)

include h

/-- As long as no node is added, no mark is exceeded. -/
theorem of_thins (hthins : before.Thins after) : after.Within (marks.raise after.tree.size) := by
  obtain ⟨husedEq, hused, hsize, hcapacity, hinitial⟩ := h
  obtain ⟨hsame, hless, hfixed⟩ := hthins
  have hfits : after.tree.size ≤ after.used := Nat.le_add_right _ _
  apply raise <;> omega

/-- A node more opens a slot only if there are as many entries as slots in use. -/
theorem of_gains (hgains : before.Gains after) : after.Within (marks.raise after.tree.size) := by
  obtain ⟨husedEq, hused, hsize, hcapacity, hinitial⟩ := h
  have hmore := hgains.size
  have hfits : after.tree.size ≤ after.used := Nat.le_add_right _ _
  rcases hgains.used_eq with ⟨hsame, hfixed⟩ | ⟨hfull, hopened, hfit⟩
  · apply raise <;> omega
  · have hall : before.used = before.tree.size := by
      rw [Layout.used, hfull]
      rfl
    -- storage is full when it grows, so twice the capacity is twice the number of entries
    rcases Arena.of_fit_eq_ok hfit with ⟨hle, hfixed⟩ | ⟨hlt, hgrown⟩
    · apply raise <;> omega
    · have hleast := before.room.least_le
      rw [Arena.grownCapacity] at hgrown
      apply raise <;> omega

/-- An operation keeps what the watermarks bound. -/
theorem mark {operation : Operation τ K V} (hsettles : operation.Settles before after) :
    after.Within (operation.mark before.tree.size after.tree.size marks) := by
  cases operation with
  | insert key value policy =>
    rcases hsettles with hthins | hgains
    · exact h.of_thins hthins
    · exact h.of_gains hgains
  | clear =>
    obtain rfl : after = before.clear.2 := hsettles
    obtain ⟨_ | ⟨color, left, cell, right⟩, vacated, capacity, room⟩ := before
    -- without entries, nothing is forgotten
    · exact h
    · exact ⟨rfl, Nat.zero_le _, Nat.zero_le _, h.capacity_le, h.capacity_eq⟩
  | copy =>
    obtain rfl : after = before.copy := hsettles
    have hroom : before.copy.capacity = marks.recent := h.used_eq
    refine ⟨h.used_eq, Nat.le_refl _, Nat.le_refl _, ?_, fun _ => hroom⟩
    exact hroom.le.trans ((Nat.le_max_left _ _).trans (Nat.le_max_left _ _))
  | _ => exact h.of_thins hsettles

end

end Layout.Within

/-- The slots in use are those of the layout. -/
theorem LinkedTree.LaidOut.size_slots {linked : LinkedTree K V} {layout : Layout K V}
    (h : linked.LaidOut layout) : linked.arena.slots.size = layout.used := by
  rw [h.storage.size_eq, Tree.length_slots, Layout.used]

namespace Operation

variable {operation : Operation τ K V} {before after : LinkedTree K V} {layout new : Layout K V}
  (hbefore : before.LaidOut layout) (hafter : after.LaidOut new)

include hbefore hafter

/-- An operation that only vacates slots opens none and leaves the capacity as it is. -/
theorem stores_of_thins (hcopy : operation ≠ .copy) (hthins : layout.Thins new) :
    operation.Stores before after where
  opens hopens := by
    rw [hbefore.size_slots, hafter.size_slots, hthins.used] at hopens
    exact absurd hopens (Nat.lt_irrefl _)
  grows _ hgrows := by
    rw [hbefore.capacity, hafter.capacity, hthins.capacity] at hgrows
    exact absurd rfl hgrows
  copies hcopies := absurd hcopies hcopy

/-- An insertion opens a slot if none is vacant, and grows the storage if it is full. -/
theorem stores_of_gains {key : K} {value : V} {policy : DuplicatePolicy}
    (hgains : layout.Gains new) :
    (Operation.insert key value policy : Operation τ K V).Stores before after where
  opens hopens := by
    refine ⟨⟨key, value, policy, rfl⟩, fun id hid => ?_⟩
    rw [hbefore.size_slots, hafter.size_slots] at hopens
    rcases hgains.used_eq with ⟨hsame, -⟩ | ⟨hfull, -, -⟩
    · omega
    · exact hbefore.storage.exists_node_of_lt hfull hid
  grows _ hgrows := by
    refine ⟨⟨key, value, policy, rfl⟩, ?_⟩
    rw [hbefore.capacity, hafter.capacity] at hgrows ⊢
    rw [hafter.size, hgains.size]
    rcases hgains.used_eq with ⟨-, hfixed⟩ | ⟨-, -, hfit⟩
    · exact absurd hfixed hgrows
    · rcases Arena.of_fit_eq_ok hfit with ⟨-, hfixed⟩ | ⟨hlt, hgrown⟩
      · exact absurd hfixed hgrows
      · rw [hgrown, Arena.grownCapacity]
        omega
  copies hcopy := by cases hcopy

/-- What an operation does to the layout, it does to storage. -/
theorem Settles.stores (h : operation.Settles layout new) : operation.Stores before after := by
  cases operation with
  | insert key value policy =>
    rcases h with hthins | hgains
    · exact stores_of_thins hbefore hafter (by rintro ⟨⟩) hthins
    · exact stores_of_gains hbefore hafter hgains
  | clear =>
    obtain rfl : new = layout.clear.2 := h
    have hless : layout.clear.2.used ≤ layout.used ∧ layout.clear.2.capacity = layout.capacity := by
      rw [Layout.clear]
      split
      · exact ⟨Nat.le_refl _, rfl⟩
      · exact ⟨Nat.zero_le _, rfl⟩
    refine ⟨fun hopens => ?_, fun _ hgrows => ?_, by rintro ⟨⟩⟩
    · rw [hbefore.size_slots, hafter.size_slots] at hopens
      omega
    · rw [hbefore.capacity, hafter.capacity] at hgrows
      exact absurd hless.2 hgrows
  | copy =>
    obtain rfl : new = layout.copy := h
    have hused : after.arena.slots.size = before.arena.slots.size :=
      hafter.size_slots.trans hbefore.size_slots.symm
    refine ⟨fun hopens => absurd hused hopens.ne', fun hcopy => absurd rfl hcopy, fun _ => ?_⟩
    exact ⟨hused, hafter.capacity.trans hbefore.size_slots.symm⟩
  | _ => exact stores_of_thins hbefore hafter (by rintro ⟨⟩) h

end Operation

/-! ## Runs -/

namespace Snapshot

/-- Perform operations and keep the watermarks. -/
def survey (comparator : Comparator σ K) :
    List (Operation τ K V) → Watermarks → Snapshot σ K V → Watermarks × Snapshot σ K V
  | [], marks, snapshot => (marks, snapshot)
  | operation :: operations, marks, snapshot =>
    let after := (snapshot.perform comparator operation).2
    after.survey comparator operations
      (operation.mark snapshot.layout.tree.size after.layout.tree.size marks)

/-- A run keeps what the watermarks bound. -/
theorem within_survey (comparator : Comparator σ K) (operations : List (Operation τ K V))
    {marks : Watermarks} {snapshot : Snapshot σ K V} (h : snapshot.layout.Within marks) :
    (snapshot.survey comparator operations marks).2.layout.Within
      (snapshot.survey comparator operations marks).1 := by
  induction operations generalizing marks snapshot with
  | nil => exact h
  | cons operation operations ih =>
    exact ih (h.mark (settles_perform comparator operation snapshot))

/-- Only a copy begins with another capacity. -/
theorem initial_survey (comparator : Comparator σ K) {operations : List (Operation τ K V)}
    (hcopy : .copy ∉ operations) (marks : Watermarks) (snapshot : Snapshot σ K V) :
    (snapshot.survey comparator operations marks).1.initial = marks.initial := by
  induction operations generalizing marks snapshot with
  | nil => rfl
  | cons operation operations ih =>
    rw [List.mem_cons, not_or] at hcopy
    obtain ⟨hfirst, hrest⟩ := hcopy
    rw [survey, ih hrest]
    cases operation with
    | copy => exact absurd rfl hfirst
    | clear =>
      rw [Operation.mark]
      split <;> rfl
    | _ => rfl

end Snapshot

namespace Engine

theorem Performs.survey (comparator : Comparator σ K) (operations : List (Operation τ K V))
    (marks : Watermarks) (before : Snapshot σ K V) :
    Performs (Engine.survey comparator operations marks) before
      (before.survey comparator operations marks).2
      (before.survey comparator operations marks).1 := by
  induction operations generalizing marks before with
  | nil => exact .pure _ _
  | cons operation operations ih =>
    have hcount : ∀ snapshot : Snapshot σ K V, Performs (Engine.inspect fun tree => .ok tree.size)
        snapshot snapshot snapshot.layout.tree.size :=
      fun snapshot => .inspect fun _ hlaid => congrArg Except.ok hlaid.size
    refine .bind (hcount before) (.bind (.operation comparator operation before) ?_)
    exact .bind (hcount _) (ih _ _)

/-- After every run, whatever the comparator answers, the slots in use are as many as there were
entries at most since the last time that entries were cleared, or as the original of a copy
used; they fit into the capacity, which is at most what the container began with, four, or twice
the greatest number of entries ever, and a container that was built for some entries and never
had more has the capacity with which it was built. The next operation opens a slot only if it is
an insertion that finds every slot occupied, and changes the capacity only if it is an insertion
after which the entries exceed it, which then grows. -/
theorem storage_within_watermarks {room : Room} {capacity : Nat} {arena : Arena K V}
    (hnew : Arena.withCapacity room capacity = .ok arena) (comparator : Comparator σ K)
    (memory : σ) (operations : List (Operation τ K V)) :
    ∃ marks context,
      survey comparator operations (.start arena.capacity) (.ofArena arena memory) =
        .ok marks context ∧
      marks.Bounds context.tree.arena.slots.size context.tree.arena.capacity context.tree.size ∧
      (.copy ∉ operations → marks.greatest ≤ capacity →
        context.tree.arena.capacity = arena.capacity) ∧
      ∀ operation : Operation τ K V, ∃ answer after,
        operation.perform comparator context = .ok answer after ∧
          operation.Stores context.tree after.tree := by
  let start : Snapshot σ K V := .empty arena.capacity room memory
  obtain ⟨tree, hrun, hlaid⟩ :=
    (Performs.survey comparator operations (.start arena.capacity) start).exists_eq_ok hnew
  have hstart : start.layout.Within (.start arena.capacity) :=
    ⟨rfl, Nat.zero_le _, Nat.zero_le _, (Nat.le_max_left _ _).trans (Nat.le_max_left _ _),
      fun _ => rfl⟩
  have hwithin := Snapshot.within_survey comparator operations hstart
  refine ⟨_, _, hrun, ?_, ?_, ?_⟩
  · rw [Layout.Within, ← hlaid.size_slots, ← hlaid.capacity, ← hlaid.size] at hwithin
    exact hwithin
  · intro hcopy hmost
    have hinitial := Snapshot.initial_survey comparator hcopy (.start arena.capacity) start
    have hplanned := Arena.le_capacity_of_withCapacity_eq_ok hnew
    have hle := hmost.trans (hplanned.trans hinitial.ge)
    exact hlaid.capacity.trans ((hwithin.capacity_eq hle).trans hinitial)
  · intro operation
    obtain ⟨new, hperform, hafter⟩ := Performs.operation comparator operation _ tree hlaid
    exact ⟨_, _, hperform, (Snapshot.settles_perform comparator operation _).stores hlaid hafter⟩

/-- A run that removes, clears and copies, in a container built for two entries. -/
theorem storage_within_watermarks_flipping :
    ∃ marks context,
      survey (Comparator.flipping 3 compare)
        [.insert 1 10 .overwrite, .insert 2 20 .reject, .remove 1, .insert 3 30 .overwrite, .clear,
          .clear, .insert 4 40 .reject, .insert 5 50 .overwrite, .pop .left, .copy,
          .insert 6 60 .reject, .insert 7 70 .overwrite, .traverse [.next, .remove],
          (.retain (fun _ value _ => ((false, value), ())) () : Operation Unit Nat Nat)]
        (.start 4) (.ofArena ({ Arena.empty ⟨16, 24⟩ with capacity := 4 } : Arena Nat Nat) 0) =
        .ok marks context ∧
      marks.Bounds context.tree.arena.slots.size context.tree.arena.capacity context.tree.size ∧
      ∀ operation : Operation Unit Nat Nat, ∃ answer after,
        operation.perform (Comparator.flipping 3 compare) context = .ok answer after ∧
          operation.Stores context.tree after.tree := by
  have hnew : Arena.withCapacity ⟨16, 24⟩ 2 =
      .ok ({ Arena.empty ⟨16, 24⟩ with capacity := 4 } : Arena Nat Nat) := rfl
  obtain ⟨marks, context, hrun, hbounds, -, hstores⟩ :=
    storage_within_watermarks hnew (Comparator.flipping 3 compare) 0 _
  exact ⟨marks, context, hrun, hbounds, hstores⟩

end Engine

end RedBlack
