import RedBlack.Proofs.Arena.Registry

/-!
# Vacating a Slot Twice

Vacating a slot that is vacant already ends in a fault, but not without a trace: the slot is
marked once more before the fault is noticed, and then leads back to the slot vacated last. The
free list has become a cycle (`Arena.Segment`) that runs through live slots as soon as its slots
are given out again.

`Arena.free_vacated_corrupts` says so of every arena that can be reached and of every vacant slot
in it. Nodes and counters stay as they were, so nothing can be noticed until as many nodes have
been stored as the cycle has slots. The next one is written over a live node.
-/

namespace RedBlack

namespace Arena

variable {K V : Type} {arena other : Arena K V} {ids before rest : List SlotId} {id : SlotId}
  {link last : Link}

/-! ## Parts of the free list -/

/-- The free list runs from a link through the given slots to another link. -/
def Segment (arena : Arena K V) : Link → List SlotId → Link → Prop
  | link, [], last => link = last
  | link, id :: rest, last =>
    link = some id ∧ ∃ next, arena.slots[id]? = some (.vacant next) ∧ arena.Segment next rest last

/-- The free list depends only on the slots it runs through. -/
theorem Segment.congr (h : arena.Segment link ids last)
    (hsame : ∀ id ∈ ids, other.slots[id]? = arena.slots[id]?) : other.Segment link ids last := by
  induction ids generalizing link with
  | nil => exact h
  | cons id rest ih =>
    obtain ⟨hlink, next, hslot, hrest⟩ := h
    rw [List.forall_mem_cons] at hsame
    exact ⟨hlink, next, hsame.1.trans hslot, ih hrest hsame.2⟩

/-- The slot at the end of a segment belongs to a longer one. -/
theorem Segment.append_singleton (h : arena.Segment link before (some id))
    (hslot : arena.slots[id]? = some (.vacant last)) :
    arena.Segment link (before ++ [id]) last := by
  induction before generalizing link with
  | nil => exact ⟨h, last, hslot, rfl⟩
  | cons first before ih =>
    obtain ⟨hlink, next, hfirst, hrest⟩ := h
    exact ⟨hlink, next, hfirst, ih hrest⟩

/-- Every slot on the free list ends a segment of it. -/
theorem Chain.segment (h : arena.Chain link (before ++ id :: rest)) :
    arena.Segment link before (some id) ∧
      ∃ next, arena.slots[id]? = some (.vacant next) ∧ arena.Chain next rest := by
  induction before generalizing link with
  | nil => exact h
  | cons first before ih =>
    obtain ⟨hlink, next, hfirst, hrest⟩ := h
    obtain ⟨hsegment, hid⟩ := ih hrest
    exact ⟨⟨hlink, next, hfirst, hsegment⟩, hid⟩

/-- Where the free list starts decides through which slots it runs. -/
theorem Chain.eq_of_link (h : arena.Chain link ids) (h' : arena.Chain link rest) : ids = rest := by
  induction ids generalizing link rest with
  | nil =>
    cases rest with
    | nil => rfl
    | cons id rest => cases h.symm.trans h'.1
  | cons id ids ih =>
    obtain ⟨hlink, next, hslot, hnext⟩ := h
    cases rest with
    | nil => cases hlink.symm.trans h'
    | cons first rest =>
      obtain ⟨hfirst, next', hslot', hnext'⟩ := h'
      cases hlink.symm.trans hfirst
      cases hslot.symm.trans hslot'
      rw [ih hnext hnext']

/-! ## Storing along a segment -/

/-- The first slot of a segment is given out, and the free list goes on behind it. -/
theorem Segment.alloc_eq_ok (h : arena.Segment arena.lastVacated (id :: ids) last)
    (hnodup : (id :: ids).Nodup) (key : K) (value : V) (parent : Link) :
    ∃ after, alloc key value parent arena = .ok (.ok id) after ∧
      after.Segment after.lastVacated ids last ∧
      ∀ other, after.node? other =
        if id = other then some (Node.leaf key value parent) else arena.node? other := by
  obtain ⟨hlast, next, hslot, hrest⟩ := h
  have hsize : id < arena.slots.size := (Array.getElem?_eq_some_iff.1 hslot).1
  refine ⟨_, alloc_of_vacant hlast hslot key value parent, hrest.congr fun other hother => ?_,
    node?_write hsize⟩
  have hne : id ≠ other := fun heq => (List.nodup_cons.1 hnodup).1 (heq ▸ hother)
  exact Array.getElem?_setIfInBounds_ne hne

/-- As many nodes as a segment has slots fill the segment. -/
theorem Segment.run_alloc_eq_ok (h : arena.Segment arena.lastVacated ids last) (hnodup : ids.Nodup)
    {entries : List (K × V × Link)} (hlength : entries.length = ids.length) :
    ∃ full, run (entries.map fun entry => .alloc entry.1 entry.2.1 entry.2.2) arena =
        .ok (ids.map fun id => .allocated (.ok id)) full ∧
      full.lastVacated = last ∧
      (∀ id ∈ ids, ∃ node, full.node? id = some node) ∧
      ∀ id, id ∉ ids → full.node? id = arena.node? id := by
  induction ids generalizing arena entries with
  | nil =>
    cases List.length_eq_zero_iff.1 hlength
    exact ⟨arena, rfl, h, List.forall_mem_nil _, fun _ _ => rfl⟩
  | cons id ids ih =>
    obtain ⟨⟨key, value, parent⟩, entries, rfl⟩ := List.exists_cons_of_length_eq_add_one hlength
    obtain ⟨after, halloc, hsegment, hnode⟩ := h.alloc_eq_ok hnodup key value parent
    rw [List.nodup_cons] at hnodup
    obtain ⟨full, hrun, hlast, hlive, hothers⟩ := ih hsegment hnodup.2 (Nat.succ.inj hlength)
    have hperform : (Action.alloc key value parent).perform arena =
        .ok (.allocated (.ok id)) after := by
      simp only [Action.perform, Bind.bind, EStateM.bind, halloc]
      rfl
    refine ⟨full, ?_, hlast, List.forall_mem_cons.2 ⟨⟨Node.leaf key value parent, ?_⟩, hlive⟩,
      fun other hother => ?_⟩
    · rw [List.map_cons, run]
      simp only [Bind.bind, EStateM.bind, hperform, hrun]
      rfl
    · rw [hothers id hnodup.1, hnode, if_pos rfl]
    · rw [List.mem_cons, not_or] at hother
      rw [hothers other hother.2, hnode, if_neg (Ne.symm hother.1)]

/-- Where the free list is a cycle, nodes are stored once around it, and the next one is written
over a live node. -/
theorem Segment.corrupts (h : arena.Segment arena.lastVacated ids arena.lastVacated)
    (hnodup : ids.Nodup) (hne : ids ≠ []) {entries : List (K × V × Link)}
    (hlength : entries.length = ids.length) :
    ∃ full, run (entries.map fun entry => .alloc entry.1 entry.2.1 entry.2.2) arena =
        .ok (ids.map fun id => .allocated (.ok id)) full ∧
      ∃ head node, full.node? head = some node ∧
        ∀ key value parent, ∃ broken,
          alloc key value parent full = .error .corruptFreeList broken ∧
          broken.node? head = some (Node.leaf key value parent) := by
  obtain ⟨full, hrun, hlast, hlive, -⟩ := h.run_alloc_eq_ok hnodup hlength
  obtain ⟨head, tail, rfl⟩ := List.exists_cons_of_ne_nil hne
  obtain ⟨node, hnode⟩ := hlive head List.mem_cons_self
  refine ⟨full, hrun, head, node, hnode, fun key value parent =>
    ⟨_, alloc_of_live (hlast.trans h.1) hnode key value parent, ?_⟩⟩
  rw [node?_write (lt_size_of_node? hnode), if_pos rfl]

/-! ## The second time -/

/-- A new arena holds what a new registry says. -/
theorem tracks_of_withCapacity {room : Room} {capacity : Nat}
    (h : withCapacity room capacity = .ok arena) :
    (Registry.new arena.capacity room).Tracks arena [] := by
  obtain ⟨grown, rfl⟩ := exists_of_withCapacity_eq_ok h
  have hempty : (empty room : Arena K V).Holds [] [] := .empty room
  exact ⟨⟨hempty.chain, hempty.exists_node, hempty.partition, hempty.live⟩, fun _ => rfl, rfl, rfl,
    Nat.zero_le _⟩

/-- In an arena that can be reached, the free list runs through all slots without a node. -/
theorem exists_holds_of_run {room : Room} {capacity : Nat} {reached : Arena K V}
    {actions : List (Action K V)} {outcomes : List (Outcome K V)}
    (hnew : withCapacity room capacity = .ok arena)
    (hrun : run actions arena = .ok outcomes reached) :
    ∃ occupied vacated, reached.Holds occupied vacated := by
  have hmeets := (tracks_of_withCapacity hnew).run actions
  rcases hexpected : Registry.run actions (.new arena.capacity room) with _ | ⟨expected, registry⟩
  all_goals rw [hexpected] at hmeets
  · obtain ⟨fault, after, hfault⟩ := hmeets
    cases hrun.symm.trans hfault
  · obtain ⟨after, hok, occupied, htracks⟩ := hmeets
    cases hrun.symm.trans hok
    exact ⟨occupied, registry.vacated, htracks.holds⟩

/-- Marking a slot on the free list once more bends the list back to its start. -/
theorem Chain.segment_mark (h : arena.Chain arena.lastVacated (before ++ id :: rest))
    (hnodup : (before ++ id :: rest).Nodup) :
    (arena.mark id).Segment arena.lastVacated (before ++ [id]) arena.lastVacated := by
  obtain ⟨hsegment, next, hslot, -⟩ := h.segment
  have hbefore : id ∉ before := fun hmem =>
    (List.nodup_append'.1 hnodup).2.2 hmem List.mem_cons_self
  refine (hsegment.congr fun other hother => ?_).append_singleton ?_
  · have hne : id ≠ other := fun heq => hbefore (heq ▸ hother)
    exact Array.getElem?_setIfInBounds_ne hne
  · exact Array.getElem?_setIfInBounds_self_of_lt (Array.getElem?_eq_some_iff.1 hslot).1

/-- The slot then leads elsewhere than before. -/
theorem Chain.slots_mark_ne (h : arena.Chain arena.lastVacated (before ++ id :: rest)) :
    (arena.mark id).slots[id]? ≠ arena.slots[id]? := by
  obtain ⟨-, next, hslot, hrest⟩ := h.segment
  have hmark : (arena.mark id).slots[id]? = some (.vacant arena.lastVacated) :=
    Array.getElem?_setIfInBounds_self_of_lt (Array.getElem?_eq_some_iff.1 hslot).1
  rw [hmark, hslot]
  intro heq
  have hnext : arena.lastVacated = next := by
    injection heq with heq
    injection heq
  -- otherwise the whole list would follow behind the slot once more
  have hlength := congrArg List.length (h.eq_of_link (hnext ▸ hrest))
  simp only [List.length_append, List.length_cons] at hlength
  omega

/-- Vacating a vacant slot again ends in a fault. Nothing but the slot itself has changed then, but
the slot has: the free list is a cycle. The nodes that are stored next get its slots, and the
one after them is written over a live node. -/
theorem free_vacated_corrupts {room : Room} {capacity : Nat} {reached : Arena K V}
    {actions : List (Action K V)} {outcomes : List (Outcome K V)}
    (hnew : withCapacity room capacity = .ok arena)
    (hrun : run actions arena = .ok outcomes reached)
    (hid : id < reached.slots.size) (hvacant : reached.node? id = none) :
    ∃ damaged, free id reached = .error .doubleFree damaged ∧
      damaged.slots[id]? ≠ reached.slots[id]? ∧
      (∀ other, id ≠ other → damaged.slots[other]? = reached.slots[other]?) ∧
      (∀ other, damaged.node? other = reached.node? other) ∧
      damaged.lastVacated = reached.lastVacated ∧
      damaged.live = reached.live ∧
      ∃ ids : List SlotId, ids.getLast? = some id ∧
        damaged.Segment damaged.lastVacated ids damaged.lastVacated ∧
        ∀ entries : List (K × V × Link), entries.length = ids.length →
          ∃ full, run (entries.map fun entry => .alloc entry.1 entry.2.1 entry.2.2) damaged =
              .ok (ids.map fun id => .allocated (.ok id)) full ∧
            ∃ head node, full.node? head = some node ∧
              ∀ key value parent, ∃ broken,
                alloc key value parent full = .error .corruptFreeList broken ∧
                broken.node? head = some (Node.leaf key value parent) := by
  obtain ⟨occupied, vacated, hholds⟩ := exists_holds_of_run hnew hrun
  have hmem : id ∈ vacated := by
    refine (List.mem_append.1 (hholds.partition.mem_iff.2 (List.mem_range.2 hid))).resolve_left ?_
    intro hoccupied
    obtain ⟨node, hnode⟩ := hholds.exists_node id hoccupied
    cases hvacant.symm.trans hnode
  obtain ⟨before, rest, rfl⟩ := List.append_of_mem hmem
  have hnodup := (List.nodup_append'.1 hholds.nodup).2.1
  have hsegment := hholds.chain.segment_mark hnodup
  obtain ⟨-, next, hslot, -⟩ := hholds.chain.segment
  have hfree : free id reached = .error .doubleFree (reached.mark id) := by
    simp only [free, hslot]
  have hnode : ∀ other, (reached.mark id).node? other = reached.node? other := by
    intro other
    rw [node?_mark]
    split
    · next heq => exact heq ▸ hvacant.symm
    · rfl
  refine ⟨reached.mark id, hfree, hholds.chain.slots_mark_ne,
    fun other hne => Array.getElem?_setIfInBounds_ne hne, hnode, rfl, rfl, before ++ [id],
    List.getLast?_concat, hsegment, fun entries hlength => ?_⟩
  rw [List.append_cons] at hnodup
  exact hsegment.corrupts (List.nodup_append'.1 hnodup).1 (List.concat_ne_nil _ _) hlength

/-- Of two vacant slots, the one vacated first is vacated again. -/
theorem free_vacated_corrupts_first :
    ∃ reached damaged : Arena Nat Nat,
      run [.alloc 1 10 none, .alloc 2 20 none, .free (some 0), .free (some 1)] (empty ⟨16, 24⟩) =
        .ok [.allocated (.ok 0), .allocated (.ok 1), .freed (1, 10), .freed (2, 20)] reached ∧
      0 < reached.slots.size ∧ reached.node? 0 = none ∧
      free 0 reached = .error .doubleFree damaged ∧ damaged.slots[0]? ≠ reached.slots[0]? := by
  have hnew : withCapacity ⟨16, 24⟩ 0 = .ok (empty ⟨16, 24⟩ : Arena Nat Nat) := rfl
  obtain ⟨reached, hrun, hid, hvacant⟩ : ∃ reached : Arena Nat Nat,
      run [.alloc 1 10 none, .alloc 2 20 none, .free (some 0), .free (some 1)] (empty ⟨16, 24⟩) =
        .ok [.allocated (.ok 0), .allocated (.ok 1), .freed (1, 10), .freed (2, 20)] reached ∧
      0 < reached.slots.size ∧ reached.node? 0 = none := ⟨_, rfl, by decide, rfl⟩
  obtain ⟨damaged, hfree, hslot, -⟩ := free_vacated_corrupts hnew hrun hid hvacant
  exact ⟨reached, damaged, hrun, hid, hvacant, hfree, hslot⟩

/-- With a single slot, the second node after the fault is written over the first. -/
theorem free_vacated_corrupts_loner :
    ∃ reached damaged full broken : Arena Nat Nat,
      run [.alloc 1 10 none, .free (some 0)] (empty ⟨16, 24⟩) =
        .ok [.allocated (.ok 0), .freed (1, 10)] reached ∧
      free 0 reached = .error .doubleFree damaged ∧
      reached.slots[0]? = some (.vacant none) ∧
      damaged.slots[0]? = some (.vacant (some 0)) ∧
      alloc 2 20 none damaged = .ok (.ok 0) full ∧
      full.node? 0 = some (Node.leaf 2 20 none) ∧
      alloc 3 30 none full = .error .corruptFreeList broken ∧
      broken.node? 0 = some (Node.leaf 3 30 none) :=
  ⟨_, _, _, _, rfl, rfl, rfl, rfl, rfl, rfl, rfl, rfl⟩

end Arena

end RedBlack
