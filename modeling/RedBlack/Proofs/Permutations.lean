import Mathlib.Data.List.Lex
import Mathlib.Data.List.Permutation
import RedBlack.Permutations

/-!
# Exhaustive Permutations

The search over two buffers visits every permutation of the positions once, in lexicographic
order, and hands both buffers back as they were (`fold_visits_permutations`).

`completions n missing taken` are the orders that a call of the search still goes through when the
positions `taken` are taken: a call visits exactly these (`extend_eq`), whatever the buffers hold.
That they are all permutations, without repeats and in order, is then about lists of positions
alone.
-/

namespace RedBlack

namespace Permutations

variable {α β : Type} {items : Array α} {scratch : Scratch α} {n missing position : Nat}
  {taken order : List Nat} {item : α}

/-! ## Orders of positions -/

/-- The ways to append the given number of positions below `n` to the ones that are taken. -/
def completions (n : Nat) : (missing : Nat) → (taken : List Nat) → List (List Nat)
  | 0, _ => [[]]
  | missing + 1, taken =>
    (List.range n).flatMap fun position =>
      if position ∈ taken then []
      else (completions n missing (position :: taken)).map (position :: ·)

/-- The completions that begin with a position. -/
theorem mem_ite_map {lists : List (List Nat)} :
    order ∈ (if position ∈ taken then [] else lists.map (position :: ·)) ↔
      position ∉ taken ∧ ∃ rest ∈ lists, position :: rest = order := by
  split <;> simp [*]

/-- A completion is a list of the right length that takes no position twice. -/
theorem mem_completions_iff :
    order ∈ completions n missing taken ↔
      order.length = missing ∧ order.Nodup ∧ (∀ position ∈ order, position < n) ∧
        order.Disjoint taken := by
  induction missing generalizing taken order with
  | zero =>
    rw [completions, List.mem_singleton, List.length_eq_zero_iff]
    constructor
    · rintro rfl
      exact ⟨rfl, .nil, List.forall_mem_nil _, List.disjoint_nil_left taken⟩
    · exact And.left
  | succ missing ih =>
    simp only [completions, List.mem_flatMap, List.mem_range, mem_ite_map, ih]
    constructor
    · rintro ⟨position, hlt, htaken, rest, ⟨hlength, hnodup, hbelow, hdisjoint⟩, rfl⟩
      rw [List.disjoint_cons_right] at hdisjoint
      exact ⟨congrArg (· + 1) hlength, hnodup.cons hdisjoint.1,
        List.forall_mem_cons.2 ⟨hlt, hbelow⟩, List.disjoint_cons_left.2 ⟨htaken, hdisjoint.2⟩⟩
    · rintro ⟨hlength, hnodup, hbelow, hdisjoint⟩
      cases order with
      | nil => cases hlength
      | cons position rest =>
        rw [List.nodup_cons] at hnodup
        rw [List.forall_mem_cons] at hbelow
        rw [List.disjoint_cons_left] at hdisjoint
        exact ⟨position, hbelow.1, hdisjoint.1, rest, ⟨Nat.succ.inj hlength, hnodup.2, hbelow.2,
          List.disjoint_cons_right.2 ⟨hnodup.1, hdisjoint.2⟩⟩, rfl⟩

/-- Completions come in lexicographic order. -/
theorem pairwise_completions (n missing : Nat) (taken : List Nat) :
    (completions n missing taken).Pairwise (· < ·) := by
  induction missing generalizing taken with
  | zero => exact List.pairwise_singleton _ _
  | succ missing ih =>
    rw [completions, List.pairwise_flatMap]
    constructor
    · intro position _
      split
      · exact .nil
      · exact List.pairwise_map.2 ((ih _).imp List.Lex.cons)
    · refine List.pairwise_lt_range.imp fun {position next} hlt order horder other hother => ?_
      obtain ⟨-, rest, -, rfl⟩ := mem_ite_map.1 horder
      obtain ⟨-, rest', -, rfl⟩ := mem_ite_map.1 hother
      exact List.Lex.rel hlt

/-- All positions are completed to their permutations. -/
theorem mem_completions_range_iff :
    order ∈ completions n n [] ↔ order.Perm (List.range n) := by
  rw [mem_completions_iff]
  constructor
  · rintro ⟨hlength, hnodup, hbelow, -⟩
    have hsubset : order ⊆ List.range n := fun position hmem =>
      List.mem_range.2 (hbelow position hmem)
    refine (List.subperm_of_subset hnodup hsubset).perm_of_length_le ?_
    rw [List.length_range, hlength]
  · intro hperm
    refine ⟨?_, hperm.nodup_iff.2 List.nodup_range, fun position hmem => ?_,
      List.disjoint_nil_right order⟩
    · rw [hperm.length_eq, List.length_range]
    · exact List.mem_range.1 (hperm.mem_iff.1 hmem)

/-- There are `n!` of them. -/
theorem length_completions_range (n : Nat) : (completions n n []).length = n.factorial := by
  have hnodup : (completions n n []).Nodup :=
    (pairwise_completions n n []).imp fun hlt => ne_of_lt hlt
  have hnodup' : (List.range n).permutations.Nodup :=
    List.nodup_permutations _ List.nodup_range
  have hperm : (completions n n []).Perm (List.range n).permutations := by
    rw [List.perm_ext_iff_of_nodup hnodup hnodup']
    intro order
    rw [mem_completions_range_iff, List.mem_permutations]
  rw [hperm.length_eq, List.length_permutations, List.length_range]

/-! ## The search -/

/-- The items at the given positions. -/
def arrangement (items : Array α) (order : List Nat) : Array α :=
  (order.filterMap (items[·]?)).toArray

/-- All positions below the number of items have one. -/
theorem map_some_arrangement (h : ∀ position ∈ order, position < items.size) :
    (arrangement items order).toList.map some = order.map (items[·]?) := by
  induction order with
  | nil => rfl
  | cons position order ih =>
    rw [List.forall_mem_cons] at h
    have hitem : items[position]? = some items[position] := Array.getElem?_eq_getElem h.1
    rw [List.map_cons, ← ih h.2, arrangement, List.filterMap_cons_some hitem, hitem]
    rfl

/-- An item that is taken follows the ones before it. -/
theorem push_append_arrangement (h : items[position]? = some item) (out : Array α)
    (order : List Nat) :
    out.push item ++ arrangement items order = out ++ arrangement items (position :: order) := by
  simp [arrangement, h]

namespace Scratch

/-- A free position lies in the buffer. -/
theorem used_of_isUsed (h : scratch.isUsed position = false) :
    scratch.used[position]? = some false := by
  rw [isUsed, Array.getD_eq_getD_getElem?] at h
  cases hused : scratch.used[position]? with
  | none =>
    rw [hused] at h
    cases h
  | some flag =>
    rw [hused] at h
    exact congrArg some h

/-- Giving back the item that was taken last restores both buffers. -/
theorem giveBack_take (h : scratch.isUsed position = false) (item : α) :
    (scratch.take position item).giveBack position = scratch := by
  have hused := used_of_isUsed h
  obtain ⟨hlt, -⟩ := Array.getElem?_eq_some_iff.1 hused
  have hrestored : (scratch.used.setIfInBounds position true).setIfInBounds position false =
      scratch.used := by
    refine Array.ext_getElem? fun other => ?_
    simp only [Array.getElem?_setIfInBounds, Array.size_setIfInBounds, if_pos hlt]
    split
    · next hother => exact hother ▸ hused.symm
    · rfl
  rw [take, giveBack, hrestored, Array.pop_push]

/-- Exactly the given positions below `n` are taken. -/
def Marks (scratch : Scratch α) (n : Nat) (taken : List Nat) : Prop :=
  ∀ position < n, scratch.isUsed position = true ↔ position ∈ taken

/-- The positions that are taken can be read off the buffer. -/
theorem marks_filter (scratch : Scratch α) (n : Nat) :
    scratch.Marks n ((List.range n).filter scratch.isUsed) := by
  intro position hlt
  rw [List.mem_filter, and_iff_right (List.mem_range.2 hlt)]

/-- No position is taken at the start. -/
theorem marks_start (items : Array α) : (start items).Marks items.size [] := by
  intro position hlt
  simp [isUsed, start, hlt]

/-- Taking an item takes its position. -/
theorem Marks.take (h : scratch.Marks n taken) (hfree : scratch.isUsed position = false)
    (item : α) : (scratch.take position item).Marks n (position :: taken) := by
  obtain ⟨hposition, -⟩ := Array.getElem?_eq_some_iff.1 (used_of_isUsed hfree)
  intro other hlt
  rw [List.mem_cons, ← h other hlt]
  simp only [isUsed, Scratch.take, Array.getD_eq_getD_getElem?, Array.getElem?_setIfInBounds,
    if_pos hposition]
  split
  · next heq => exact iff_of_true rfl (.inl heq.symm)
  · next hne => exact (or_iff_right fun heq => hne heq.symm).symm

end Scratch

/-- A call of the search visits the completions of what is taken, in order, and restores the
buffers. -/
theorem extend_eq (visit : β → Array α → β) (h : scratch.Marks items.size taken) (result : β) :
    extend items visit missing (scratch, result) =
      (scratch, (completions items.size missing taken).foldl
        (fun result order => visit result (scratch.out ++ arrangement items order)) result) := by
  induction missing generalizing scratch taken result with
  | zero => simp [extend, completions, arrangement]
  | succ missing ih =>
    rw [extend, completions, List.foldl_flatMap]
    refine List.foldl_rel (r := fun state result => state = (scratch, result)) rfl ?_
    rintro position hmem _ result rfl
    have hlt := List.mem_range.1 hmem
    have hitem : items[position]? = some items[position] := Array.getElem?_eq_getElem hlt
    cases hfree : scratch.isUsed position with
    | true =>
      rw [if_pos ((h position hlt).1 hfree), List.foldl_nil]
      simp only [hitem, hfree]
    | false =>
      have htaken : position ∉ taken := fun htaken => by
        cases hfree.symm.trans ((h position hlt).2 htaken)
      have hout : (scratch.take position items[position]).out = scratch.out.push items[position] :=
        rfl
      rw [if_neg htaken, List.foldl_map]
      simp only [hitem, hfree, ih (h.take hfree items[position]), Scratch.giveBack_take hfree, hout,
        push_append_arrangement hitem]

/-- The search visits the arrangements of the items in the orders that are the permutations of the
positions, each once and in lexicographic order; every call restores the buffers. -/
theorem fold_visits_permutations (items : Array α) :
    ∃ orders : List (List Nat),
      (∀ order, order ∈ orders ↔ order.Perm (List.range items.size)) ∧
      orders.Pairwise (· < ·) ∧
      orders.length = items.size.factorial ∧
      (∀ order ∈ orders, (arrangement items order).toList.map some = order.map (items[·]?)) ∧
      (∀ {β : Type} (visit : β → Array α → β) (result : β),
        fold items visit result =
          orders.foldl (fun result order => visit result (arrangement items order)) result) ∧
      ∀ {β : Type} (visit : β → Array α → β) (missing : Nat) (scratch : Scratch α) (result : β),
        (extend items visit missing (scratch, result)).1 = scratch := by
  refine ⟨completions items.size items.size [], fun order => mem_completions_range_iff,
    pairwise_completions _ _ _, length_completions_range _, ?_, ?_, ?_⟩
  · intro order horder
    rw [mem_completions_iff] at horder
    exact map_some_arrangement horder.2.2.1
  · intro β visit result
    rw [fold, extend_eq visit (Scratch.marks_start items)]
    simp only [Scratch.start, Array.empty_append]
  · intro β visit missing scratch result
    rw [extend_eq visit (scratch.marks_filter items.size)]

-- equal items give equal arrangements more than once
example : all #[5, 5] = #[#[5, 5], #[5, 5]] := by decide

end Permutations

end RedBlack
