import RedBlack.Proofs.Tree.Path

/-!
# Searching Trees

The descent towards a key, as a walk over a tree alone. Whoever is asked where to turn may
remember the questions and answer them in any way, so nothing here is about an order.

* `seek` stops at the first node where the answer is `eq`, or in an empty place;
* `trail` turns right there, so it always ends in an empty place.

Both only single out a place of the tree (`under_seek`, `nil_under_trail`). If the answers do not
change and the entries are ranked by them, `seek` finds the one entry that is called equal, or
the place between those called greater and those called less (`parts_seek`), and so does
`trail` if no entry is called equal (`trail_between`).
-/

namespace RedBlack

namespace Tree

variable {σ α : Type} (ask : α → σ → Ordering × σ)

/-- Descend from a place, to the left where the answer is `lt` and to the right where it is
`gt`. Gives the subtree where the descent ends, the path to it, and the memory afterwards. -/
def seek : Tree α → Path α → σ → (Tree α × Path α) × σ
  | nil, path, memory => ((nil, path), memory)
  | node color left entry right, path, memory =>
    match ask entry memory with
    | (.lt, memory) => seek left (⟨.left, color, entry, right⟩ :: path) memory
    | (.gt, memory) => seek right (⟨.right, color, entry, left⟩ :: path) memory
    | (.eq, memory) => ((node color left entry right, path), memory)

/-- Descend from a place to an empty one, to the left where the answer is `lt` and to the
right otherwise. -/
def trail : Tree α → Path α → σ → Path α × σ
  | nil, path, memory => (path, memory)
  | node color left entry right, path, memory =>
    match ask entry memory with
    | (.lt, memory) => trail left (⟨.left, color, entry, right⟩ :: path) memory
    | (_, memory) => trail right (⟨.right, color, entry, left⟩ :: path) memory

/-- A descent leaves the tree as it is. -/
theorem under_seek (tree : Tree α) (path : Path α) (memory : σ) :
    (tree.seek ask path memory).1.1.under (tree.seek ask path memory).1.2 = tree.under path := by
  fun_induction seek ask tree path memory with
  | case1 => rfl
  | case2 _ _ _ _ _ _ _ _ ih => exact ih
  | case3 _ _ _ _ _ _ _ _ ih => exact ih
  | case4 => rfl

/-- A descent to an empty place leaves the tree as it is. -/
theorem nil_under_trail (tree : Tree α) (path : Path α) (memory : σ) :
    nil.under (tree.trail ask path memory).1 = tree.under path := by
  fun_induction trail ask tree path memory with
  | case1 => rfl
  | case2 _ _ _ _ _ _ _ _ ih => exact ih
  | case3 =>
    rename_i ih
    exact ih

/-! ## Ranked entries -/

variable {ask} {rank : α → Ordering}

/-- Along a list, the answers are first `gt`, then at most once `eq`, and then `lt`. -/
def Ranked (rank : α → Ordering) (list : List α) : Prop :=
  list.Pairwise fun a b => rank a = .gt ∨ rank b = .lt

/-- In front of an entry that is not called less, all are called greater. -/
theorem Ranked.before {front back : List α} {a : α} (h : Ranked rank (front ++ a :: back))
    (ha : rank a ≠ .lt) : ∀ b ∈ front, rank b = .gt := by
  intro b hb
  have hpair := (List.pairwise_append.1 h).2.2 b hb a List.mem_cons_self
  exact hpair.resolve_right ha

/-- Behind an entry that is not called greater, all are called less. -/
theorem Ranked.after {front back : List α} {a : α} (h : Ranked rank (front ++ a :: back))
    (ha : rank a ≠ .gt) : ∀ b ∈ back, rank b = .lt := by
  intro b hb
  have hpair := (List.pairwise_cons.1 (List.pairwise_append.1 h).2.1).1 b hb
  exact hpair.resolve_left ha

/-- Entries called greater in front of entries called less are ranked. -/
theorem ranked_append {front back : List α} (hfront : ∀ a ∈ front, rank a = .gt)
    (hback : ∀ a ∈ back, rank a = .lt) : Ranked rank (front ++ back) := by
  refine List.pairwise_append.2 ⟨?_, ?_, fun a ha _ _ => .inl (hfront a ha)⟩
  · exact List.pairwise_of_forall_mem_list fun a ha _ _ => .inl (hfront a ha)
  · exact List.pairwise_of_forall_mem_list fun _ _ b hb => .inr (hback b hb)

/-- The entries before a place are called greater, and those after it less. -/
def Parts (rank : α → Ordering) (path : Path α) : Prop :=
  (∀ a ∈ Path.before path, rank a = .gt) ∧ ∀ a ∈ Path.after path, rank a = .lt

theorem parts_nil : Parts rank [] :=
  ⟨fun _ ha => absurd ha List.not_mem_nil, fun _ ha => absurd ha List.not_mem_nil⟩

theorem toList_node_under (color : Color) (left : Tree α) (entry : α) (right : Tree α)
    (path : Path α) :
    ((node color left entry right).under path).toList =
      (Path.before path ++ left.toList) ++ entry :: (right.toList ++ Path.after path) := by
  simp [toList_under, toList]

/-- There is only one place in a list between the entries called greater and those called
less. -/
theorem append_inj_of_parts {front back front' back' : List α}
    (h : front ++ back = front' ++ back') (hfront : ∀ a ∈ front, rank a = .gt)
    (hback : ∀ a ∈ back, rank a = .lt) (hfront' : ∀ a ∈ front', rank a = .gt)
    (hback' : ∀ a ∈ back', rank a = .lt) : front = front' ∧ back = back' := by
  -- the entries called greater are the front part, whichever way the list is split
  have htake : ∀ {front back : List α}, (∀ a ∈ front, rank a = .gt) →
      (∀ a ∈ back, rank a = .lt) → (front ++ back).filter (rank · == .gt) = front := by
    intro front back hfront hback
    rw [List.filter_append, List.filter_eq_self.2, List.filter_eq_nil_iff.2, List.append_nil]
    · intro a ha
      rw [hback a ha]
      decide
    · intro a ha
      rw [hfront a ha]
      rfl
  have hsame : front = front' := by
    rw [← htake hfront hback, h, htake hfront' hback']
  exact ⟨hsame, List.append_cancel_left (hsame ▸ h)⟩

/-- Below an entry that is called less, the place on its left still parts the entries. -/
theorem Parts.left {path : Path α} {color : Color} {left right : Tree α} {entry : α}
    (h : Parts rank path) (hranked : Ranked rank ((node color left entry right).under path).toList)
    (hentry : rank entry = .lt) : Parts rank (⟨.left, color, entry, right⟩ :: path) := by
  rw [toList_node_under] at hranked
  have hafter := hranked.after (by rw [hentry]; decide)
  refine ⟨h.1, ?_⟩
  -- the entries after the place are the entry, its right subtree and those after before
  rintro a (_ | ⟨_, ha⟩)
  · exact hentry
  · exact hafter a ha

/-- Below an entry that is called greater, the place on its right still parts the entries. -/
theorem Parts.right {path : Path α} {color : Color} {left right : Tree α} {entry : α}
    (h : Parts rank path) (hranked : Ranked rank ((node color left entry right).under path).toList)
    (hentry : rank entry = .gt) : Parts rank (⟨.right, color, entry, left⟩ :: path) := by
  rw [toList_node_under] at hranked
  have hbefore := hranked.before (by rw [hentry]; decide)
  refine ⟨?_, h.2⟩
  intro a ha
  rw [Path.before, ← List.append_assoc, List.mem_append, List.mem_singleton] at ha
  rcases ha with ha | rfl
  · exact hbefore a ha
  · exact hentry

variable (hask : ∀ a memory, (ask a memory).1 = rank a)

include hask

/-- A descent ends between the entries called greater and those called less, and it stops at
an entry only if that is called equal. -/
theorem parts_seek {tree : Tree α} {path : Path α} (hpath : Parts rank path)
    (hranked : Ranked rank (tree.under path).toList) (memory : σ) :
    Parts rank (tree.seek ask path memory).1.2 ∧
      ∀ color left entry right,
        (tree.seek ask path memory).1.1 = node color left entry right → rank entry = .eq := by
  induction tree generalizing path memory with
  | nil => exact ⟨hpath, fun _ _ _ _ hnode => by cases hnode⟩
  | node color left entry right ihl ihr =>
    rw [seek]
    rcases heq : ask entry memory with ⟨answer, memory'⟩
    have hentry : rank entry = answer := by rw [← hask entry memory, heq]
    -- each turn adds the entry, and the subtree that is left aside, to one of the two parts
    cases answer with
    | lt => exact ihl (hpath.left hranked hentry) hranked memory'
    | eq =>
      refine ⟨hpath, fun _ _ _ _ hnode => ?_⟩
      cases hnode
      exact hentry
    | gt => exact ihr (hpath.right hranked hentry) hranked memory'

/-- If a path turns left at entries called less and right at entries called greater, a descent
takes it. -/
theorem seek_under {low : Path α}
    (h : ∀ frame ∈ low, (frame.side = .left → rank frame.entry = .lt) ∧
      (frame.side = .right → rank frame.entry = .gt))
    (tree : Tree α) (up : Path α) (memory : σ) :
    ∃ memory', (tree.under low).seek ask up memory = tree.seek ask (low ++ up) memory' := by
  induction low generalizing tree with
  | nil => exact ⟨memory, rfl⟩
  | cons frame low ih =>
    obtain ⟨⟨hleft, hright⟩, hlow⟩ := List.forall_mem_cons.1 h
    obtain ⟨between, hbetween⟩ := ih hlow (frame.close tree)
    rcases heq : ask frame.entry between with ⟨answer, memory'⟩
    have hentry : rank frame.entry = answer := by rw [← hask frame.entry between, heq]
    refine ⟨memory', hbetween.trans ?_⟩
    obtain ⟨side, color, entry, sibling⟩ := frame
    cases side with
    | left =>
      obtain rfl : answer = .lt := hentry.symm.trans (hleft rfl)
      simp only [Frame.close, join, seek, heq]
      rfl
    | right =>
      obtain rfl : answer = .gt := hentry.symm.trans (hright rfl)
      simp only [Frame.close, join, seek, heq]
      rfl

/-- So it ends at any entry that is called equal, between those called greater and those called
less. -/
theorem seek_eq_of_parts {path : Path α} (h : Parts rank path) {color : Color}
    {left right : Tree α} {entry : α} (hentry : rank entry = .eq) (memory : σ) :
    (((node color left entry right).under path).seek ask [] memory).1 =
      (node color left entry right, path) := by
  have hturns : ∀ frame ∈ path, (frame.side = .left → rank frame.entry = .lt) ∧
      (frame.side = .right → rank frame.entry = .gt) := fun frame hframe =>
    ⟨fun hside => h.2 _ (Path.entry_mem_after hframe hside),
      fun hside => h.1 _ (Path.entry_mem_before hframe hside)⟩
  obtain ⟨memory', hseek⟩ := seek_under hask hturns (node color left entry right) [] memory
  rcases heq : ask entry memory' with ⟨answer, after⟩
  obtain rfl : answer = .eq := by rw [← hentry, ← hask entry memory', heq]
  simp only [hseek, seek, heq, List.append_nil]

/-- If a path turns left exactly at the entries called less, a descent to an empty place takes
it. -/
theorem trail_under {low : Path α} (h : ∀ frame ∈ low, frame.side = .left ↔ rank frame.entry = .lt)
    (tree : Tree α) (up : Path α) (memory : σ) :
    ∃ memory', (tree.under low).trail ask up memory = tree.trail ask (low ++ up) memory' := by
  induction low generalizing tree with
  | nil => exact ⟨memory, rfl⟩
  | cons frame low ih =>
    obtain ⟨hturn, hlow⟩ := List.forall_mem_cons.1 h
    obtain ⟨between, hbetween⟩ := ih hlow (frame.close tree)
    rcases heq : ask frame.entry between with ⟨answer, memory'⟩
    have hentry : rank frame.entry = answer := by rw [← hask frame.entry between, heq]
    refine ⟨memory', hbetween.trans ?_⟩
    -- the last step is that of the lowest frame
    obtain ⟨side, color, entry, sibling⟩ := frame
    rw [hentry] at hturn
    cases side with
    | left =>
      obtain rfl : answer = .lt := hturn.1 rfl
      simp only [Frame.close, join, trail, heq]
      rfl
    | right =>
      have hne : answer ≠ .lt := fun hlt => by cases hturn.2 hlt
      simp only [Frame.close, join, trail, heq]
      cases answer with
      | lt => exact absurd rfl hne
      | eq => rfl
      | gt => rfl

/-- So it ends at any place with the entries called less, and no others, on its right. -/
theorem trail_eq_of_parted {path : Path α} (hbefore : ∀ a ∈ Path.before path, rank a ≠ .lt)
    (hafter : ∀ a ∈ Path.after path, rank a = .lt) (memory : σ) :
    ((nil.under path).trail ask [] memory).1 = path := by
  have hturns : ∀ frame ∈ path, frame.side = .left ↔ rank frame.entry = .lt := by
    intro frame hframe
    cases hside : frame.side with
    | left => exact iff_of_true rfl (hafter _ (Path.entry_mem_after hframe hside))
    | right =>
      exact iff_of_false (by rintro ⟨⟩) (hbefore _ (Path.entry_mem_before hframe hside))
  obtain ⟨_, htrail⟩ := trail_under hask hturns nil [] memory
  rw [htrail, trail, List.append_nil]

/-- If no entry is called equal, a descent to an empty place ends between those called
greater and those called less. -/
theorem parts_trail {tree : Tree α} {path : Path α} (hpath : Parts rank path)
    (hranked : Ranked rank (tree.under path).toList) (hne : ∀ a ∈ tree.toList, rank a ≠ .eq)
    (memory : σ) : Parts rank (tree.trail ask path memory).1 := by
  induction tree generalizing path memory with
  | nil => exact hpath
  | node color left entry right ihl ihr =>
    rw [toList, List.forall_mem_append, List.forall_mem_cons] at hne
    obtain ⟨hleft, hne, hright⟩ := hne
    rw [trail]
    rcases heq : ask entry memory with ⟨answer, memory'⟩
    have hentry : rank entry = answer := by rw [← hask entry memory, heq]
    cases answer with
    | lt => exact ihl (hpath.left hranked hentry) hranked hleft memory'
    | eq => exact absurd hentry hne
    | gt => exact ihr (hpath.right hranked hentry) hranked hright memory'

/-- If all entries are called greater or less, in this order, a descent to an empty place ends
exactly between them. -/
theorem trail_between {tree : Tree α} {front back : List α} (hlist : tree.toList = front ++ back)
    (hfront : ∀ a ∈ front, rank a = .gt) (hback : ∀ a ∈ back, rank a = .lt) (memory : σ) :
    Path.before (tree.trail ask [] memory).1 = front ∧
      Path.after (tree.trail ask [] memory).1 = back := by
  have hranked : Ranked rank (tree.under []).toList := by
    rw [under_nil, hlist]
    exact ranked_append hfront hback
  have hne : ∀ a ∈ tree.toList, rank a ≠ .eq := by
    intro a ha
    rw [hlist] at ha
    rcases List.mem_append.1 ha with ha | ha
    · rw [hfront a ha]
      decide
    · rw [hback a ha]
      decide
  have hparts := parts_trail hask parts_nil hranked hne memory
  have hplace := toList_under nil (tree.trail ask [] memory).1
  rw [nil_under_trail, under_nil, hlist, toList, List.append_nil] at hplace
  obtain ⟨hbefore, hafter⟩ := append_inj_of_parts hplace hfront hback hparts.1 hparts.2
  exact ⟨hbefore.symm, hafter.symm⟩

end Tree

end RedBlack
