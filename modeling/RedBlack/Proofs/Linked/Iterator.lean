import RedBlack.Linked.Iterator
import RedBlack.Proofs.Linked.Layout

/-!
# Iteration over Linked Trees

An iterator over a linked tree stands at an empty place of the tree that is shown: its pending
nodes are those at which the path to the place turns left, and what it still yields are the
entries after the place (`Iterator.At`). A step moves it past one entry
(`At.next_eq_ok`), so collecting gives all entries to come, in order.
-/

namespace RedBlack

open RedBlack.Tree (Frame Path)

variable {K V : Type}

namespace Tree

/-- The slots of the nodes at which a path turns left, lowest first. -/
def Path.pending (path : Path (Cell K V)) : List SlotId :=
  (Path.turns path).map Cell.slot

end Tree

namespace LinkedTree

variable {linked : LinkedTree K V} {path up : Path (Cell K V)} {below : Tree (Cell K V)}
  {frame : Frame (Cell K V)} {layout : Layout K V}

/-- The node to yield next is the lowest one at which the path turns left. -/
theorem Depicts.node?_of_climb (h : linked.Depicts (Tree.nil.under path))
    (hclimb : Path.climb .left path .nil = some (below, frame, up)) :
    linked.arena.node? frame.entry.slot = some (frame.node below.link (Path.owner up)) := by
  obtain ⟨-, hunder⟩ := Path.of_climb_eq_some hclimb
  rw [hunder] at h
  obtain ⟨-, hstores⟩ := shows_under_iff.1 h.shows
  exact (Arena.Stores.close_iff.1 hstores).1

/-- After a node, the chain of left descendants of its right child comes next. -/
theorem Depicts.leftChain_of_climb (h : linked.Depicts (Tree.nil.under path))
    (hclimb : Path.climb .left path .nil = some (below, frame, up)) (entry : Cell K V) :
    linked.arena.leftChain (frame.node below.link (Path.owner up)).right (Path.pending up) =
      .ok (Path.pending (Path.pass below frame entry up)) := by
  obtain ⟨hside, hunder⟩ := Path.of_climb_eq_some hclimb
  rw [hunder] at h
  obtain ⟨-, hstores⟩ := shows_under_iff.1 h.shows
  obtain ⟨-, -, hsibling⟩ := Arena.Stores.close_iff.1 hstores
  -- the sibling is part of the tree, so it fits into the budget
  have hsize : frame.sibling.size ≤ linked.arena.budget := by
    have hpath := Tree.length_add_size_le frame.sibling (frame.across below :: up)
    rw [Tree.under_across, Tree.under_cons] at hpath
    exact Nat.le_succ_of_le (Nat.le_of_add_left_le (Nat.le_trans hpath h.size_le))
  obtain ⟨side, color, cell, sibling⟩ := frame
  cases hside
  exact Arena.leftChainWithin_eq hsibling (⟨.right, color, entry, below⟩ :: up) hsize

/-- The chain of left descendants of the root leads to the place before all entries. -/
theorem LaidOut.leftChain_root (h : linked.LaidOut layout) :
    linked.arena.leftChain linked.root [] =
      .ok (Path.pending (layout.tree.spine .left [])) := by
  rw [h.shows.1]
  exact Arena.leftChainWithin_eq h.shows.2 [] (Nat.le_of_lt h.size_lt_budget)

end LinkedTree

namespace Iterator

variable {iterator : Iterator K V} {linked : LinkedTree K V} {path : Path (Cell K V)}
  {layout : Layout K V}

/-- An iterator over a linked tree stands at an empty place of the tree. -/
structure At (iterator : Iterator K V) (linked : LinkedTree K V) (path : Path (Cell K V)) :
    Prop where
  /-- The links form the tree around the place. -/
  depicts : linked.Depicts (Tree.nil.under path)
  /-- The iterator reads the storage of the tree. -/
  arena : iterator.arena = linked.arena
  /-- The nodes to yield are those at which the path turns left. -/
  pending : iterator.pending = Path.pending path
  /-- The entries to yield are those after the place. -/
  remaining : iterator.remaining = (Path.after path).length

/-- The entries after a place. -/
def toCome (path : Path (Cell K V)) : List (K × V) :=
  (Path.after path).map Cell.entry

/-- An iterator begins before the first entry. -/
theorem ofTree_eq_ok (h : linked.LaidOut layout) :
    ∃ iterator, ofTree linked = .ok iterator ∧ iterator.At linked (layout.tree.spine .left []) := by
  have hafter := Tree.after_spine_left layout.tree []
  refine ⟨⟨linked.arena, Path.pending (layout.tree.spine .left []), linked.size⟩, ?_,
    ?_, rfl, rfl, ?_⟩
  · simp only [ofTree, h.leftChain_root]
    rfl
  · rw [Tree.nil_under_spine]
    exact h.depicts
  · rw [hafter, Path.after, List.append_nil, Tree.length_toList]
    exact h.size

namespace At

variable (h : iterator.At linked path)

include h

/-- Without an entry to come, the iterator yields nothing and stays where it is. -/
theorem next_of_nil (hnil : Path.after path = []) : iterator.next = .ok (none, iterator) := by
  have hclimb : Path.climb .left path .nil = none := by
    cases hclimb : Path.climb .left path .nil with
    | none => rfl
    | some place =>
      obtain ⟨below, frame, up⟩ := place
      rw [Path.after_eq_cons_of_climb frame.entry hclimb] at hnil
      cases hnil
  have hpending : iterator.pending = [] := by
    rw [h.pending, Path.pending, (Path.of_climb_left_eq_none hclimb).1]
    rfl
  simp only [next, hpending]

/-- Otherwise it yields the first one and moves past it. -/
theorem next_of_cons {cell : Cell K V} {rest : List (Cell K V)}
    (hcons : Path.after path = cell :: rest) :
    ∃ after place, iterator.next = .ok (some cell.entry, after) ∧ after.At linked place ∧
      Path.after place = rest := by
  cases hclimb : Path.climb .left path .nil with
  | none =>
    rw [(Path.of_climb_left_eq_none hclimb).2] at hcons
    cases hcons
  | some place =>
    obtain ⟨below, frame, up⟩ := place
    obtain ⟨hside, hunder⟩ := Path.of_climb_eq_some hclimb
    have hnode := h.depicts.node?_of_climb hclimb
    have hchain := h.depicts.leftChain_of_climb hclimb frame.entry
    have hafter := Path.after_eq_cons_of_climb frame.entry hclimb
    have hpending : iterator.pending = frame.entry.slot :: Path.pending up := by
      rw [h.pending, Path.pending, (Path.of_climb_left_eq_some hclimb).1]
      rfl
    have hremaining : iterator.remaining =
        (Path.after (Path.pass below frame frame.entry up)).length + 1 := by
      rw [h.remaining, hafter]
      rfl
    rw [hafter] at hcons
    cases hcons
    -- the place after the entry, with one pending node and one entry less
    refine ⟨⟨linked.arena, Path.pending (Path.pass below frame frame.entry up),
      (Path.after (Path.pass below frame frame.entry up)).length⟩,
      Path.pass below frame frame.entry up, ?_, ⟨?_, rfl, rfl, rfl⟩, rfl⟩
    · have hget := Arena.get_of_node? hnode
      obtain ⟨arena, pending, remaining⟩ := iterator
      cases h.arena
      cases hpending
      cases hremaining
      simp only [next, hget, bind, Except.bind, hchain, Frame.entry_node]
      rfl
    · rw [Path.nil_under_pass frame.entry hside]
      exact hunder ▸ h.depicts

/-- Skipping entries and yielding one, if there are as many. -/
theorem nth_eq_ok (skipped : Nat) :
    ∃ after place, nth skipped iterator = .ok ((toCome path)[skipped]?, after) ∧
      after.At linked place ∧ toCome place = (toCome path).drop (skipped + 1) := by
  induction skipped generalizing iterator path with
  | zero =>
    cases hafter : Path.after path with
    | nil =>
      refine ⟨iterator, path, ?_, h, ?_⟩
      · rw [nth, h.next_of_nil hafter, toCome, hafter]
        rfl
      · rw [toCome, hafter]
        rfl
    | cons cell rest =>
      obtain ⟨after, place, hnext, hat, hrest⟩ := h.next_of_cons hafter
      refine ⟨after, place, ?_, hat, ?_⟩
      · rw [nth, hnext, toCome, hafter]
        rfl
      · rw [toCome, toCome, hafter, hrest]
        rfl
  | succ skipped ih =>
    cases hafter : Path.after path with
    | nil =>
      refine ⟨iterator, path, ?_, h, ?_⟩
      · simp only [nth, h.next_of_nil hafter, toCome, hafter]
        rfl
      · rw [toCome, hafter]
        rfl
    | cons cell rest =>
      obtain ⟨after, place, hnext, hat, hrest⟩ := h.next_of_cons hafter
      obtain ⟨last, final, hnth, hlast, hdrop⟩ := ih hat
      refine ⟨last, final, ?_, hlast, ?_⟩
      · simp only [nth, hnext, bind, Except.bind, hnth, toCome, hafter, hrest]
        rfl
      · rw [hdrop, toCome, toCome, hafter, hrest]
        rfl

/-- Collecting gives all entries to come, in order. -/
theorem collectWithin_eq_ok {steps : Nat} (hsteps : (Path.after path).length < steps) :
    ∃ after place, collectWithin steps iterator = .ok (toCome path, after) ∧
      after.At linked place ∧ toCome place = [] := by
  induction steps generalizing iterator path with
  | zero => exact absurd hsteps (Nat.not_lt_zero _)
  | succ steps ih =>
    cases hafter : Path.after path with
    | nil =>
      refine ⟨iterator, path, ?_, h, ?_⟩
      · simp only [collectWithin, h.next_of_nil hafter, toCome, hafter]
        rfl
      · rw [toCome, hafter]
        rfl
    | cons cell rest =>
      obtain ⟨after, place, hnext, hat, hrest⟩ := h.next_of_cons hafter
      rw [hafter, List.length_cons] at hsteps
      obtain ⟨last, final, hcollect, hlast, hnil⟩ := ih hat (by rw [hrest]; omega)
      refine ⟨last, final, ?_, hlast, hnil⟩
      simp only [collectWithin, hnext, bind, Except.bind, hcollect, toCome, hafter, hrest]
      rfl

/-- The budget suffices to collect. -/
theorem collect_eq_ok :
    ∃ after place, iterator.collect = .ok (toCome path, after) ∧ after.At linked place ∧
      toCome place = [] := by
  refine h.collectWithin_eq_ok ?_
  have hlist := Tree.toList_under .nil path
  have hsize := h.depicts.size_le
  rw [← Tree.length_toList, hlist, List.length_append] at hsize
  rw [h.arena, Arena.budget]
  -- the entries to come are entries of the tree
  omega

end At

end Iterator

/-- The entries of a linked tree are those of the tree that it shows, in order. -/
theorem LinkedTree.entries_eq_ok {linked : LinkedTree K V} {layout : Layout K V}
    (h : linked.LaidOut layout) :
    linked.entries = .ok (layout.tree.toList.map Cell.entry) := by
  obtain ⟨iterator, hstart, hat⟩ := Iterator.ofTree_eq_ok h
  obtain ⟨_, _, hcollect, -⟩ := hat.collect_eq_ok
  have hafter := Tree.after_spine_left layout.tree []
  rw [Path.after, List.append_nil] at hafter
  rw [Iterator.toCome, hafter] at hcollect
  simp only [LinkedTree.entries, hstart, bind, Except.bind, hcollect]
  rfl

end RedBlack
