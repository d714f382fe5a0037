import Mathlib.Algebra.BigOperators.Group.Finset.Basic
import Mathlib.Data.Fintype.Basic
import RedBlack.Proofs.Engine.Ledger
import RedBlack.Proofs.Engine.Reachable
import RedBlack.Session.Basic

/-!
# Pools of Maps

Any number of maps in slots, which are built, acted on, cloned into another slot and dropped.
A map that is displaced by another one or dropped is discarded, which releases its values.

A run accounts for the values that are given to the maps, with one copy of each stored value
for each clone, and for those that the maps hand back. Whatever the comparators answer, these
accounts balance (`Pool.values_conserved`): the values given are, counted with multiplicity,
those in the storage of the maps, those handed back, and those that the maps themselves let go
of.

The module introduces:

* `Arena.contents` — the values in the occupied slots of an arena;
* `Pool`, `Pool.Command`, `Pool.step` and `Pool.run`;
* `Pool.Account` — the values given to the maps of a pool and those handed back;
* `Pool.Sound` — the invariant of a pool: all of its maps are laid out in order.
-/

namespace RedBlack

variable {ι σ τ K V : Type}

/-! ## Values in storage -/

/-- The value in a slot of an arena, if the slot holds a node. -/
def Arena.value? (arena : Arena K V) (id : SlotId) : Option V :=
  (arena.node? id).map Node.value

/-- The values of the nodes that lie in an arena. -/
def Arena.contents (arena : Arena K V) : Multiset V :=
  (List.range arena.slots.size).filterMap arena.value?

/-- The slots of a stored tree hold the values of its cells. -/
theorem Arena.Stores.values_eq {arena : Arena K V} {parent : Link} {tree : Tree (Cell K V)}
    (h : arena.Stores parent tree) :
    tree.slots.filterMap arena.value? = tree.toList.map Cell.value := by
  induction tree generalizing parent with
  | nil => rfl
  | node color left cell right ihl ihr =>
    obtain ⟨hnode, hleft, hright⟩ := h
    have hvalue : arena.value? cell.slot = some cell.value := by
      rw [value?, hnode]
      rfl
    have hslots : (Tree.node color left cell right).slots =
        left.slots ++ cell.slot :: right.slots := by
      simp only [Tree.slots, Tree.toList, List.map_append, List.map_cons]
    rw [hslots, List.filterMap_append, List.filterMap_cons_some hvalue, ihl hleft, ihr hright]
    simp only [Tree.toList, List.map_append, List.map_cons]

/-- The values in storage are those of the cells. -/
theorem LinkedTree.LaidOut.contents_eq {linked : LinkedTree K V} {layout : Layout K V}
    (h : linked.LaidOut layout) : linked.arena.contents = Cell.values layout.tree.toList := by
  have hvacated : layout.vacated.filterMap linked.arena.value? = [] :=
    List.filterMap_eq_nil_iff.2 fun id hid => by
      rw [Arena.value?, h.storage.chain.node?_eq_none hid]
      rfl
  calc linked.arena.contents
    _ = ((layout.tree.slots ++ layout.vacated).filterMap linked.arena.value? : Multiset V) :=
      Multiset.coe_eq_coe.2 (h.storage.partition.symm.filterMap _)
    _ = Cell.values layout.tree.toList := by
      rw [List.filterMap_append, hvacated, List.append_nil, h.shows.2.values_eq]
      rfl

/-- Discarding a map is clearing it. -/
theorem LinkedTree.LaidOut.discard_eq {linked : LinkedTree K V} {layout : Layout K V}
    (h : linked.LaidOut layout) : Session.discard linked = .ok layout.clear.1 := by
  obtain ⟨_, hclear, -⟩ := Reforms.clear layout linked h
  rw [Session.discard, hclear]

/-- Discarding a map releases the values in its storage. -/
theorem LinkedTree.LaidOut.discard_eq_ok {linked : LinkedTree K V} {layout : Layout K V}
    (h : linked.LaidOut layout) :
    ∃ values events, Session.discard linked = .ok (values, events) ∧
      (values : Multiset V) = linked.arena.contents := by
  refine ⟨layout.clear.1.1, layout.clear.1.2, h.discard_eq, ?_⟩
  rw [h.contents_eq, Layout.values_clear]
  exact Multiset.coe_eq_coe.2 layout.tree.values_perm

/-! ## Pools -/

/-- Maps in slots. -/
structure Pool (ι σ K V : Type) where
  /-- The map in a slot, if there is one. -/
  containers : ι → Option (LinkedTree K V)
  /-- What the comparators remember. -/
  memory : σ
  /-- The values that the maps themselves let go of so far. -/
  released : Array V := #[]

namespace Pool

/-- A command to a pool. -/
inductive Command (ι σ τ K V : Type) where
  /-- Put a new map into a slot. -/
  | build (slot : ι) (room : Room) (capacity : Nat)
  /-- Perform an operation on the map in a slot. -/
  | act (slot : ι) (comparator : Comparator σ K) (operation : OrderedMap.Operation τ K V)
  /-- Put a copy of a map into a slot. -/
  | clone (source target : ι)
  /-- Drop the map in a slot. -/
  | drop (slot : ι)

/-- The values that were given to the maps of a pool and those that they handed back. -/
structure Account (V : Type) where
  /-- The values given to the maps. -/
  entered : Multiset V := 0
  /-- The values handed back. -/
  handed : Multiset V := 0

section

variable [DecidableEq ι]

/-- The pool with another map, or none, in a slot. -/
def put (slot : ι) (tree? : Option (LinkedTree K V)) (pool : Pool ι σ K V) : Pool ι σ K V :=
  { pool with containers := Function.update pool.containers slot tree? }

/-- Put another map, or none, into a slot, and discard the one that is there. -/
def replace (slot : ι) (tree? : Option (LinkedTree K V)) (pool : Pool ι σ K V) :
    Except Fault (Pool ι σ K V) :=
  match pool.containers slot with
  | none => .ok (pool.put slot tree?)
  | some displaced => do
    let (values, _) ← Session.discard displaced
    return { pool.put slot tree? with released := pool.released ++ values }

/-- The context for operations on a map of the pool. -/
def contextOf (tree : LinkedTree K V) (pool : Pool ι σ K V) : Context σ K V :=
  { tree, memory := pool.memory, released := pool.released }

/-- Perform an operation on the map in a slot. -/
def act (slot : ι) (tree : LinkedTree K V) (comparator : Comparator σ K)
    (operation : OrderedMap.Operation τ K V) (pool : Pool ι σ K V) :
    Except Fault (Answer τ K V × Pool ι σ K V) :=
  match operation.perform comparator (pool.contextOf tree) with
  | .error fault _ => .error fault
  | .ok answer { tree, memory, released, .. } =>
    .ok (answer, { pool.put slot (some tree) with memory, released })

/-- Carry out a command. Nothing happens without a map to act on or storage for a new one. -/
def step (command : Command ι σ τ K V) (pool : Pool ι σ K V) :
    Except Fault (Option (Answer τ K V) × Pool ι σ K V) :=
  match command with
  | .build slot room capacity =>
    match Arena.withCapacity room capacity with
    | .error _ => .ok (none, pool)
    | .ok arena => return (none, ← pool.replace slot (some (.ofArena arena)))
  | .act slot comparator operation =>
    match pool.containers slot with
    | none => .ok (none, pool)
    | some tree => do
      let (answer, pool) ← pool.act slot tree comparator operation
      return (some answer, pool)
  | .clone source target =>
    match pool.containers source with
    | none => .ok (none, pool)
    | some tree => return (none, ← pool.replace target (some tree.copy))
  | .drop slot => return (none, ← pool.replace slot none)

end

/-- The values in the storage of a map, if there is one. -/
def contents : Option (LinkedTree K V) → Multiset V
  | none => 0
  | some tree => tree.arena.contents

/-- The values in the storage of all maps. -/
def stored [Fintype ι] (pool : Pool ι σ K V) : Multiset V :=
  ∑ slot, contents (pool.containers slot)

/-- Without maps nothing is stored. -/
theorem stored_eq_zero [Fintype ι] {pool : Pool ι σ K V}
    (h : ∀ slot, pool.containers slot = none) : pool.stored = 0 :=
  Finset.sum_eq_zero fun slot _ => by
    rw [h slot]
    rfl

/-- The values that are given to a pool with a command. -/
def Command.entered (pool : Pool ι σ K V) : Command ι σ τ K V → Multiset V
  | .act slot _ operation =>
    if (pool.containers slot).isSome then operation.onEngine.entered else 0
  | .clone source _ => contents (pool.containers source)
  | _ => 0

/-- The values that are handed back with the answer to a command. -/
def Command.handed : Command ι σ τ K V → Option (Answer τ K V) → Multiset V
  | .act _ _ operation, some answer => operation.handed answer
  | _, _ => 0

/-- The command changes no value where it lies. -/
def Command.KeepsValues : Command ι σ τ K V → Prop
  | .act _ _ operation => operation.onEngine.KeepsValues
  | _ => True

/-- Carry out commands one after the other. Gives the account of all of them. -/
def run [DecidableEq ι] :
    List (Command ι σ τ K V) → Pool ι σ K V → Except Fault (Account V × Pool ι σ K V)
  | [], pool => .ok ({}, pool)
  | command :: commands, pool => do
    let (answer, next) ← pool.step command
    let (account, last) ← run commands next
    return ({
      entered := command.entered pool + account.entered
      handed := command.handed answer + account.handed }, last)

/-- A pool without maps. -/
def empty (memory : σ) : Pool ι σ K V :=
  { containers := fun _ => none, memory }

/-! ## Soundness -/

/-- A map, if there is one, is laid out in order. -/
def InOrder (tree? : Option (LinkedTree K V)) : Prop :=
  ∀ tree, tree? = some tree → ∃ layout, tree.LaidOut layout

theorem inOrder_none : InOrder (none : Option (LinkedTree K V)) :=
  nofun

theorem inOrder_some {tree : LinkedTree K V} {layout : Layout K V} (h : tree.LaidOut layout) :
    InOrder (some tree) := by
  rintro _ ⟨⟩
  exact ⟨layout, h⟩

/-- All maps are laid out in order. -/
def Sound (pool : Pool ι σ K V) : Prop :=
  ∀ slot, InOrder (pool.containers slot)

theorem sound_empty (memory : σ) : (empty memory : Pool ι σ K V).Sound :=
  fun _ => inOrder_none

variable [DecidableEq ι] {pool : Pool ι σ K V} {slot : ι}

theorem containers_put_self (slot : ι) (tree? : Option (LinkedTree K V)) (pool : Pool ι σ K V) :
    (pool.put slot tree?).containers slot = tree? := by
  simp only [put, Function.update_self]

theorem containers_put_of_ne {other : ι} (h : other ≠ slot) (tree? : Option (LinkedTree K V))
    (pool : Pool ι σ K V) : (pool.put slot tree?).containers other = pool.containers other := by
  simp only [put, Function.update_of_ne h]

/-- A map in order can be put into any slot. -/
theorem Sound.put (h : pool.Sound) (slot : ι) {tree? : Option (LinkedTree K V)}
    (htree : InOrder tree?) : (pool.put slot tree?).Sound := by
  intro other
  by_cases hslot : other = slot
  · rw [hslot, containers_put_self]
    exact htree
  · rw [containers_put_of_ne hslot]
    exact h other

/-! ## Balance -/

variable [Fintype ι]

/-- Another map in a slot changes what is stored by what is stored in that slot. -/
theorem stored_put (slot : ι) (tree? : Option (LinkedTree K V)) (pool : Pool ι σ K V) :
    (pool.put slot tree?).stored + contents (pool.containers slot) =
      pool.stored + contents tree? := by
  -- both sums without the slot are the same
  have hothers :
      ∑ other ∈ Finset.univ.erase slot, contents ((pool.put slot tree?).containers other) =
        ∑ other ∈ Finset.univ.erase slot, contents (pool.containers other) :=
    Finset.sum_congr rfl fun other hother => by
      rw [containers_put_of_ne (Finset.ne_of_mem_erase hother)]
  have hslot := Finset.mem_univ slot
  rw [stored, stored, ← Finset.add_sum_erase _ _ hslot, ← Finset.add_sum_erase Finset.univ _ hslot,
    hothers, containers_put_self]
  abel

/-- The values in storage and those that the maps let go of. -/
def held (pool : Pool ι σ K V) : Multiset V :=
  pool.stored + pool.released.toList

/-- Discarding the map in a slot moves its values from storage to those let go of. -/
theorem Sound.replace_eq_ok (h : pool.Sound) (slot : ι) {tree? : Option (LinkedTree K V)}
    (htree : InOrder tree?) :
    ∃ next, pool.replace slot tree? = .ok next ∧ next.Sound ∧
      next.containers = (pool.put slot tree?).containers ∧
      next.held = pool.held + contents tree? := by
  have hstored := stored_put slot tree? pool
  cases hslot : pool.containers slot with
  | none =>
    rw [hslot, contents, add_zero] at hstored
    refine ⟨pool.put slot tree?, ?_, h.put slot htree, rfl, ?_⟩
    · rw [replace, hslot]
    · rw [held, held, hstored]
      exact add_right_comm _ _ _
  | some displaced =>
    obtain ⟨layout, hlaid⟩ := h slot displaced hslot
    obtain ⟨values, events, hdiscard, hvalues⟩ := hlaid.discard_eq_ok
    rw [hslot, contents, ← hvalues] at hstored
    refine ⟨{ pool.put slot tree? with released := pool.released ++ values }, ?_,
      h.put slot htree, rfl, ?_⟩
    · simp only [replace, hslot, hdiscard, bind, Except.bind, pure, Except.pure]
    · calc (pool.put slot tree?).stored + ((pool.released ++ values).toList : Multiset V)
        _ = (pool.put slot tree?).stored + values + pool.released.toList := by
          rw [Array.toList_appendList, ← Multiset.coe_add]
          abel
        _ = pool.held + contents tree? := by
          rw [hstored, held]
          abel

/-- An operation on the map in a slot balances. -/
theorem Sound.act_eq_ok (h : pool.Sound) {tree : LinkedTree K V}
    (hslot : pool.containers slot = some tree) (comparator : Comparator σ K)
    {operation : OrderedMap.Operation τ K V} (hkeeps : operation.onEngine.KeepsValues) :
    ∃ answer next, pool.act slot tree comparator operation = .ok (answer, next) ∧ next.Sound ∧
      pool.held + operation.onEngine.entered = next.held + operation.handed answer := by
  obtain ⟨layout, hlaid⟩ := h slot tree hslot
  let snapshot := (pool.contextOf tree).snapshot layout
  obtain ⟨new, hperform, hnew⟩ :=
    (Engine.Performs.mapOperation comparator operation snapshot).of_context hlaid
  obtain ⟨released, hreleased, hvalues⟩ := operation.follow_conserves comparator hkeeps snapshot
  generalize operation.follow comparator snapshot = followed at hperform hnew hreleased hvalues
  obtain ⟨answer, after⟩ := followed
  refine ⟨answer,
    { pool.put slot (some new) with memory := after.memory, released := after.released }, ?_,
    h.put slot (inOrder_some hnew), ?_⟩
  · simp only [act, hperform, Snapshot.around]
  -- the values of this map are in both balances, so they cancel out
  · have hstored : (pool.put slot (some new)).stored + Cell.values snapshot.cells =
        pool.stored + Cell.values after.cells := by
      have hput := stored_put slot (some new) pool
      rw [hslot, contents, contents, hlaid.contents_eq, hnew.contents_eq] at hput
      exact hput
    have hlists : (after.released.toList : Multiset V) = pool.released.toList + released := by
      rw [hreleased, Array.toList_appendList, Multiset.coe_add]
      rfl
    refine add_right_cancel (b := Cell.values after.cells) ?_
    calc pool.stored + pool.released.toList + operation.onEngine.entered + Cell.values after.cells
      _ = (pool.stored + Cell.values after.cells) + operation.onEngine.entered +
          pool.released.toList := by abel
      _ = (pool.put slot (some new)).stored +
          (Cell.values snapshot.cells + operation.onEngine.entered) + pool.released.toList := by
        rw [← hstored]
        abel
      _ = (pool.put slot (some new)).stored + after.released.toList + operation.handed answer +
          Cell.values after.cells := by
        rw [hvalues, hlists]
        abel

/-- Every command succeeds, and what it is given and hands back balances. -/
theorem Sound.step_eq_ok (h : pool.Sound) {command : Command ι σ τ K V}
    (hkeeps : command.KeepsValues) :
    ∃ answer next, pool.step command = .ok (answer, next) ∧ next.Sound ∧
      pool.held + command.entered pool = next.held + command.handed answer := by
  cases command with
  | build slot room capacity =>
    cases hnew : (Arena.withCapacity room capacity : Except Shortage (Arena K V)) with
    | error cause =>
      refine ⟨none, pool, ?_, h, rfl⟩
      simp only [step, hnew]
    | ok arena =>
      have hlaid := LinkedTree.laidOut_ofArena hnew
      obtain ⟨next, hreplace, hnext, -, hheld⟩ := h.replace_eq_ok slot (inOrder_some hlaid)
      have hnone : contents (some (LinkedTree.ofArena arena)) = 0 := hlaid.contents_eq
      refine ⟨none, next, ?_, hnext, ?_⟩
      · simp only [step, hnew, hreplace, bind, Except.bind, pure, Except.pure]
      · rw [hheld, hnone, add_zero]
        rfl
  | act slot comparator operation =>
    cases hslot : pool.containers slot with
    | none =>
      refine ⟨none, pool, ?_, h, ?_⟩
      · simp only [step, hslot]
      · simp only [Command.entered, hslot, Option.isSome_none]
        rfl
    | some tree =>
      obtain ⟨answer, next, hact, hnext, hheld⟩ := h.act_eq_ok hslot comparator hkeeps
      refine ⟨some answer, next, ?_, hnext, ?_⟩
      · simp only [step, hslot, hact, bind, Except.bind, pure, Except.pure]
      · simp only [Command.entered, hslot, Option.isSome_some, if_true]
        exact hheld
  | clone source target =>
    cases hslot : pool.containers source with
    | none =>
      refine ⟨none, pool, ?_, h, ?_⟩
      · simp only [step, hslot]
      · simp only [Command.entered, hslot]
        rfl
    | some tree =>
      obtain ⟨layout, hlaid⟩ := h source tree hslot
      obtain ⟨next, hreplace, hnext, -, hheld⟩ := h.replace_eq_ok target (inOrder_some hlaid.copy)
      refine ⟨none, next, ?_, hnext, ?_⟩
      · simp only [step, hslot, hreplace, bind, Except.bind, pure, Except.pure]
      · simp only [Command.entered, hslot]
        exact hheld.symm.trans (add_zero _).symm
  | drop slot =>
    obtain ⟨next, hreplace, hnext, -, hheld⟩ := h.replace_eq_ok slot inOrder_none
    refine ⟨none, next, ?_, hnext, ?_⟩
    · simp only [step, hreplace, bind, Except.bind, pure, Except.pure]
    · exact hheld.symm.trans (add_zero _).symm

/-- Every run of commands succeeds, and its account balances. -/
theorem Sound.run_eq_ok (h : pool.Sound) (commands : List (Command ι σ τ K V))
    (hkeeps : ∀ command ∈ commands, command.KeepsValues) :
    ∃ account last, run commands pool = .ok (account, last) ∧ last.Sound ∧
      pool.held + account.entered = last.held + account.handed := by
  induction commands generalizing pool with
  | nil => exact ⟨{}, pool, rfl, h, rfl⟩
  | cons command commands ih =>
    obtain ⟨answer, next, hstep, hnext, hheld⟩ := h.step_eq_ok (hkeeps command List.mem_cons_self)
    obtain ⟨account, last, hrun, hlast, hrest⟩ :=
      ih hnext fun other hother => hkeeps other (List.mem_cons_of_mem command hother)
    let total : Account V :=
      { entered := command.entered pool + account.entered
        handed := command.handed answer + account.handed }
    refine ⟨total, last, ?_, hlast, ?_⟩
    · simp only [run, hstep, hrun, bind, Except.bind, pure, Except.pure, total]
    · calc pool.held + (command.entered pool + account.entered)
        _ = next.held + account.entered + command.handed answer := by
          rw [← add_assoc, hheld]
          abel
        _ = last.held + (command.handed answer + account.handed) := by
          rw [hrest]
          abel

/-- Dropping the maps in some slots is given nothing and hands nothing back. -/
theorem Sound.run_drop_eq_ok (h : pool.Sound) (slots : List ι) :
    ∃ last, run (slots.map Command.drop : List (Command ι σ τ K V)) pool = .ok ({}, last) ∧
      last.held = pool.held ∧
      ∀ slot, pool.containers slot = none ∨ slot ∈ slots → last.containers slot = none := by
  induction slots generalizing pool with
  | nil => exact ⟨pool, rfl, rfl, fun slot hslot => hslot.resolve_right List.not_mem_nil⟩
  | cons first slots ih =>
    obtain ⟨next, hreplace, hnext, hcontainers, hheld⟩ := h.replace_eq_ok first inOrder_none
    obtain ⟨last, hrun, hlast, hnone⟩ := ih hnext
    refine ⟨last, ?_, hlast.trans (hheld.trans (add_zero _)), fun slot hslot => hnone slot ?_⟩
    · simp only [List.map_cons, run, step, hreplace, hrun, bind, Except.bind, pure, Except.pure]
      rfl
    · rw [hcontainers]
      by_cases hfirst : slot = first
      · exact .inl (hfirst ▸ containers_put_self first none pool)
      · rw [containers_put_of_ne hfirst]
        exact hslot.imp_right fun hmem => (List.mem_cons.1 hmem).resolve_left hfirst

/-- Whatever the comparators answer, the values that are given to the maps of a pool are, after
every command, those in storage, those handed back, and those that the maps let go of, each
counted as often as it was given. What is in the storage of a map can be reached by traversing
it, and nothing is left in storage once all maps are dropped. -/
theorem values_conserved (memory : σ) (commands : List (Command ι σ τ K V))
    (hkeeps : ∀ command ∈ commands, command.KeepsValues) :
    ∃ account pool, run commands (empty memory) = .ok (account, pool) ∧
      account.entered = pool.stored + account.handed + (pool.released.toList : Multiset V) ∧
      (∀ slot tree, pool.containers slot = some tree → ∃ entries, tree.entries = .ok entries ∧
        tree.arena.contents = (entries.map Prod.snd : Multiset V)) ∧
      ∀ slots : List ι, (∀ slot, slot ∈ slots) → ∃ closed,
        run (slots.map Command.drop : List (Command ι σ τ K V)) pool = .ok ({}, closed) ∧
        closed.stored = 0 ∧
        account.entered = account.handed + (closed.released.toList : Multiset V) := by
  obtain ⟨account, pool, hrun, hsound, hheld⟩ := (sound_empty memory).run_eq_ok commands hkeeps
  have hempty : (empty memory : Pool ι σ K V).held = 0 := by
    rw [held, stored_eq_zero fun _ => rfl]
    rfl
  rw [hempty, zero_add] at hheld
  refine ⟨account, pool, hrun, ?_, ?_, ?_⟩
  · rw [hheld, held]
    exact add_right_comm _ _ _
  · intro slot tree hslot
    obtain ⟨layout, hlaid⟩ := hsound slot tree hslot
    have hlists := hlaid.lists
    refine ⟨_, hlists.entries, ?_⟩
    rw [hlaid.contents_eq, List.map_map]
    rfl
  · intro slots hslots
    obtain ⟨closed, hclose, hclosed, hnone⟩ := hsound.run_drop_eq_ok (τ := τ) slots
    have hstored := stored_eq_zero fun slot => hnone slot (.inr (hslots slot))
    refine ⟨closed, hclose, hstored, ?_⟩
    rw [hheld, ← hclosed, held, hstored, zero_add, add_comm]

/-- Two maps with a comparator that changes its mind. -/
theorem values_conserved_flipping :
    ∃ account pool,
      run [.build 0 ⟨8, 24⟩ 0,
          .act 0 (Comparator.flipping 3 compare) (.insert 1 10),
          .act 0 (Comparator.flipping 3 compare) (.insert 2 20),
          .act 0 (Comparator.flipping 3 compare) (.insert 1 30),
          .act 0 (Comparator.flipping 3 compare) (.shared (.insert 2 40 .reject)),
          .clone 0 1,
          .act 1 (Comparator.flipping 3 compare) (.shared (.traverse [.next, .remove, .next])),
          .act 0 (Comparator.flipping 3 compare)
            (.shared (.retain (fun key value visits => ((key == 1, value), visits + 1)) 0)),
          .clone 1 0,
          .act 1 (Comparator.flipping 3 compare) (.shared .clear),
          (.drop 1 : Command (Fin 2) Nat Nat Nat Nat)] (empty 0) = .ok (account, pool) ∧
      account.entered = pool.stored + account.handed + (pool.released.toList : Multiset Nat) := by
  refine (values_conserved 0 _ ?_).imp fun account h => h.imp fun pool h => ⟨h.1, h.2.1⟩
  simp [Command.KeepsValues, Operation.KeepsValues, OrderedMap.Operation.onEngine]

end Pool

end RedBlack
