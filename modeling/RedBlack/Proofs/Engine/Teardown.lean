import RedBlack.Proofs.Engine.Pool

/-!
# Teardown of Containers

Clearing a container releases its values in the order of the recursive traversal that comes to
both subtrees of a node before the node itself (`Tree.postorder`), although the loop keeps a list
of visits instead. It vacates each node once (`LinkedTree.Dismantles`) and leaves nothing but the
capacity (`Context.Clears`). Dropping a container, or putting a clone in its place, releases
the same values (`Engine.teardown_in_postorder`).
-/

namespace RedBlack

variable {σ τ A K V : Type}

/-! ## Teardowns -/

/-- The report of a teardown in which values were released. Without any, nothing is reported. -/
def Event.ofTeardown (values : List V) : List Event :=
  if values.length = 0 then [] else [.cleared values.length]

/-- The report of a command for which a container with the given values was dropped. -/
def Session.Report.ofTeardown (length : Option Nat) (values : List V) : Report K V :=
  { reply := .done, length, released := values, trace := Event.ofTeardown values }

/-- The loop over visits that starts at the root of a linked tree vacates each node of the tree
once, in post-order. -/
structure LinkedTree.Dismantles (linked : LinkedTree K V) (root : SlotId)
    (tree : Tree (Cell K V)) : Prop where
  /-- No slot is vacated twice. -/
  nodup : (tree.postorder.map Cell.slot).Nodup
  /-- Just the slots with a node are vacated. -/
  mem_iff : ∀ id, id ∈ tree.postorder.map Cell.slot ↔ ∃ node, linked.arena.node? id = some node
  /-- The loop ends as if the slots were vacated one after the other, and gives the values that
  were in them. -/
  loop : ∃ after,
    freeAll (tree.postorder.map Cell.slot) linked = .ok (tree.postorder.map Cell.value) after ∧
      releaseWithin (2 * linked.arena.budget) [.enter root] linked =
        .ok (tree.postorder.map Cell.value) after

/-- What clearing a tree with nodes does: values are released, and of the storage nothing is left
but its capacity. -/
structure Context.Clears (before after : Context σ K V) (values : List V) : Prop where
  /-- The values are released in order. -/
  released : after.released = before.released ++ values
  /-- Their number is reported. -/
  trace : after.trace = before.trace ++ [Event.cleared values.length]
  /-- The comparator is not asked. -/
  memory : after.memory = before.memory
  /-- There is no root. -/
  root : after.tree.root = none
  /-- No entries are counted. -/
  size : after.tree.size = 0
  /-- No nodes are counted. -/
  live : after.tree.arena.live = 0
  /-- No slot is in use. -/
  slots : after.tree.arena.slots = #[]
  /-- The free list is empty. -/
  lastVacated : after.tree.arena.lastVacated = none
  /-- The capacity is the same. -/
  capacity : after.tree.arena.capacity = before.tree.arena.capacity
  /-- The room is the same. -/
  room : after.tree.arena.room = before.tree.arena.room

/-- What clearing a tree reports depends on the released values. -/
theorem Layout.clear_fst (layout : Layout K V) :
    layout.clear.1 = (layout.tree.values, Event.ofTeardown layout.tree.values) := by
  obtain ⟨_ | ⟨color, left, cell, right⟩, vacated, capacity, room⟩ := layout
  · rfl
  · have hsize : (Tree.node color left cell right).size ≠ 0 := by
      rw [Tree.size]
      omega
    rw [Event.ofTeardown, Tree.length_values, if_neg hsize]
    rfl

section

variable {linked : LinkedTree K V} {layout : Layout K V} {root : SlotId}
  (h : linked.LaidOut layout)

include h

/-- Every tree that is laid out in order is dismantled in post-order. -/
theorem LinkedTree.LaidOut.dismantles (hroot : linked.root = some root) :
    linked.Dismantles root layout.tree := by
  have hslots : (layout.tree.postorder.map Cell.slot).Perm layout.tree.slots :=
    layout.tree.postorder_perm.map Cell.slot
  obtain ⟨after, -, hfree, -⟩ := h.freeAll_eq_ok
  have hloop := h.release_eq (h.shows.1.symm.trans hroot)
  exact {
    nodup := hslots.nodup_iff.2 h.depicts.nodup
    mem_iff := fun id => hslots.mem_iff.trans h.storage.mem_occupied_iff
    loop := ⟨after, hfree, hloop.trans hfree⟩ }

/-- Dropping the current container of a session releases its values. -/
theorem Session.step?_drop [BEq K] [KeyKind K] [Contents V] (session : Session τ K V)
    (performOwn : Comparator (Record τ K) K → A → EngineM (Record τ K) K V (Reply K V))
    (hcurrent : session.tree? = some linked) :
    session.step? performOwn .drop =
      some (.ofTeardown none layout.tree.values, { session with tree? := none }) := by
  simp only [step?, hcurrent, Report.ofDiscarded, Option.map_some, h.discard_eq,
    layout.clear_fst, Report.ofTeardown]

/-- Putting a clone in the place of a container releases its values. -/
theorem Session.step?_clone [BEq K] [KeyKind K] [Contents V] (session : Session τ K V)
    (performOwn : Comparator (Record τ K) K → A → EngineM (Record τ K) K V (Reply K V))
    {source : LinkedTree K V} {slot : Nat} (hcurrent : session.tree? = some source)
    (hdisplaced : session.containers.lookup slot = some linked) :
    session.step? performOwn (.clone slot) =
      some (.ofTeardown (some source.size) layout.tree.values,
        session.place slot source.copy) := by
  simp only [step?, hcurrent, hdisplaced, Report.ofDiscarded, Option.map_some, h.discard_eq,
    layout.clear_fst, Report.ofTeardown]

end

namespace Engine

/-- What the tree gives up is released, and what it reports is reported. -/
theorem clear_eq_ok {context : Context σ K V} {values : List V} {events : List Event}
    {tree : LinkedTree K V} (h : LinkedTree.clear context.tree = .ok (values, events) tree) :
    clear context = .ok ()
      { context with
        tree
        trace := context.trace ++ events
        released := context.released ++ values } := by
  simp only [clear, onTreeReporting, onTree, bind, EStateM.bind, h, report, release, pure,
    EStateM.pure]

/-- Clearing a tree without nodes changes nothing. -/
theorem clear_of_root_eq_none {context : Context σ K V} (hroot : context.tree.root = none) :
    clear context = .ok () context := by
  have hgetRoot : LinkedTree.getRoot context.tree = .ok none context.tree :=
    congrArg (EStateM.Result.ok · context.tree) hroot
  have hclear : LinkedTree.clear context.tree = .ok ([], []) context.tree :=
    LinkedTree.bind_of_ok hgetRoot
  refine (clear_eq_ok hclear).trans ?_
  rw [Array.appendList_nil, Array.appendList_nil]

/-- Clearing a tree with nodes. -/
theorem exists_clears {context : Context σ K V} {layout : Layout K V} {root : SlotId}
    (h : context.tree.LaidOut layout) (hroot : context.tree.root = some root) :
    ∃ after, clear context = .ok () after ∧ context.Clears after layout.tree.values := by
  obtain ⟨new, hclear, hnew⟩ := LinkedTree.Reforms.clear layout context.tree h
  obtain ⟨_ | ⟨color, left, cell, right⟩, vacated, capacity, room⟩ := layout
  · cases hroot.symm.trans h.shows.1
  -- what is left is laid out without cells and without vacant slots
  refine ⟨_, clear_eq_ok hclear, ?_⟩
  exact {
    released := rfl
    trace := by rw [Tree.length_values]
    memory := rfl
    root := hnew.shows.1
    size := hnew.size
    live := hnew.storage.live
    slots := Array.eq_empty_of_size_eq_zero hnew.storage.size_eq
    lastVacated := hnew.storage.chain
    capacity := hnew.capacity.trans h.capacity.symm
    room := hnew.room.trans h.room.symm }

/-- Whatever the comparators answered that a tree was built with: if it has nodes, clearing it
vacates each of them once and releases their values in post-order, with one event that says how
many there were. Only the capacity is left. If it has none, clearing changes nothing. Dropping a
container and putting a clone in its place release the same values in the same order. -/
theorem teardown_in_postorder [BEq K] [KeyKind K] [Contents V] {context : Context σ K V}
    (h : context.tree.Reachable) :
    ∃ tree, context.tree.Depicts tree ∧
      (∀ root, context.tree.root = some root →
        context.tree.Dismantles root tree ∧
          ∃ after, clear context = .ok () after ∧
            context.Clears after (tree.postorder.map Cell.value)) ∧
      (context.tree.root = none → clear context = .ok () context) ∧
      ∀ (session : Session τ K V)
        (performOwn : Comparator (Record τ K) K → A → EngineM (Record τ K) K V (Session.Reply K V)),
        (session.tree? = some context.tree →
          session.step? performOwn .drop =
            some (.ofTeardown none (tree.postorder.map Cell.value),
              { session with tree? := none })) ∧
        ∀ source slot, session.tree? = some source →
          session.containers.lookup slot = some context.tree →
            session.step? performOwn (.clone slot) =
              some (.ofTeardown (some source.size) (tree.postorder.map Cell.value),
                session.place slot source.copy) := by
  obtain ⟨layout, hlaid⟩ := h.exists_laidOut
  refine ⟨layout.tree, hlaid.depicts, fun root hroot => ?_, fun hroot => ?_,
    fun session performOwn => ⟨fun hcurrent => ?_, fun source slot hcurrent hdisplaced => ?_⟩⟩
  · exact ⟨hlaid.dismantles hroot, exists_clears hlaid hroot⟩
  · exact clear_of_root_eq_none hroot
  · exact Session.step?_drop hlaid session performOwn hcurrent
  · exact Session.step?_clone hlaid session performOwn hcurrent hdisplaced

/-- Clearing after a run with a comparator that changes its mind, and dropping the container
instead. -/
theorem teardown_in_postorder_flipping :
    ∃ answers context tree,
      run (Operation.perform (Comparator.flipping 3 compare))
        [.insert 4 40 .overwrite, .insert 2 20 .overwrite, .insert 6 60 .reject,
          (.insert 1 10 .reject : Operation Unit Int64 Int64)]
        (.ofArena (Arena.empty ⟨8, 24⟩ : Arena Int64 Int64) 0) = .ok answers context ∧
      context.tree.Depicts tree ∧ tree.postorder.map Cell.value = [10, 20, 60, 40] ∧
      (∃ root after, context.tree.root = some root ∧ context.tree.Dismantles root tree ∧
        clear context = .ok () after ∧ context.Clears after (tree.postorder.map Cell.value)) ∧
      (Session.ofTree (Comparator.flipping 3 compare) 0 false context.tree).step?
          (fun _ (action : Empty) => nomatch action) .drop =
        some (.ofTeardown none (tree.postorder.map Cell.value),
          { Session.ofTree (Comparator.flipping 3 compare) 0 false context.tree with
            tree? := none }) := by
  have hnew : Arena.withCapacity ⟨8, 24⟩ 0 = .ok (Arena.empty ⟨8, 24⟩ : Arena Int64 Int64) := rfl
  obtain ⟨_, context, hrun, hreachable, hshape⟩ :=
    exists_reachable_run hnew (Comparator.flipping 3 compare) 0
      [.insert 4 40 .overwrite, .insert 2 20 .overwrite, .insert 6 60 .reject,
        (.insert 1 10 .reject : Operation Unit Int64 Int64)]
  obtain ⟨tree, hdepicts, hclears, -, hsession⟩ :=
    teardown_in_postorder (τ := Nat) (A := Empty) hreachable
  have hentries := hdepicts.toTree_eq_ok.symm.trans hshape
  have hvalues : tree.values = [10, 20, 60, 40] := by
    rw [← Tree.values_entries, Except.ok.inj hentries]
    rfl
  cases hroot : context.tree.root with
  | none =>
    rw [LinkedTree.toTree, hroot] at hshape
    cases hshape
  | some root =>
    obtain ⟨hdismantles, after, hclear, hcleared⟩ := hclears root hroot
    exact ⟨_, _, tree, hrun, hdepicts, hvalues, ⟨root, after, hroot, hdismantles, hclear, hcleared⟩,
      (hsession _ _).1 rfl⟩

end Engine

end RedBlack
