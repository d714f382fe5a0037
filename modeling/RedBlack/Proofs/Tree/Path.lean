import RedBlack.Tree

/-!
# Paths

A place in a tree is a path: the frames between the place and the root, lowest first. Each
frame is a node without the subtree on one side. Closing all frames around a tree puts the
tree into the place (`under`), so a tree together with a path is a tree with one of its
subtrees singled out.

The module introduces:

* `join` and `facing` — a node built, or looked at, from one of its sides;
* `Frame`, `Path` and `under`;
* `Path.before` and `Path.after` — the entries on the two sides of a place
  (`toList_under`);
* `spine` — the path down one side of a tree to the empty place at its end
  (`nil_under_spine`);
* `Path.climb` and `Path.pass` — the way up to the next entry on one side of a place, and the
  place right after an entry.
-/

namespace RedBlack

theorem Side.eq_opposite_of_ne {side other : Side} (h : side ≠ other) : side = other.opposite := by
  cases side <;> cases other <;> first | rfl | exact absurd rfl h

/-- A list with one more entry on one side. -/
def Side.attach {α : Type} (side : Side) (entry : α) (list : List α) : List α :=
  match side with
  | .left => entry :: list
  | .right => list ++ [entry]

namespace Tree

variable {α : Type}

/-! ## Nodes by side -/

/-- A node with `near` as its subtree on one side and `far` as its other subtree. -/
def join (side : Side) (color : Color) (near : Tree α) (entry : α) (far : Tree α) : Tree α :=
  match side with
  | .left => node color near entry far
  | .right => node color far entry near

/-- The tree as it is seen from one side: from the right, the subtrees of the root are
exchanged. -/
def facing (side : Side) (tree : Tree α) : Tree α :=
  match side, tree with
  | .left, tree => tree
  | .right, nil => nil
  | .right, node color left entry right => node color right entry left

/-- The colour of the root; the empty tree counts as black. -/
def color : Tree α → Color
  | nil => .black
  | node color _ _ _ => color

/-- Recolour the root. -/
def paint (color : Color) : Tree α → Tree α
  | nil => nil
  | node _ left entry right => node color left entry right

/-- A tree that shows itself as a node is that node. -/
theorem eq_join_of_facing {side : Side} {tree near far : Tree α} {color : Color} {entry : α}
    (h : tree.facing side = node color near entry far) :
    tree = join side color near entry far := by
  cases side with
  | left => exact h
  | right =>
    cases tree with
    | nil => cases h
    | node => cases h; rfl

theorem eq_nil_of_facing {side : Side} {tree : Tree α} (h : tree.facing side = nil) :
    tree = nil := by
  cases side <;> cases tree <;> first | rfl | cases h

/-- A red tree shows itself as a red node. -/
theorem exists_facing_of_color {tree : Tree α} (h : tree.color = .red) (side : Side) :
    ∃ near entry far, tree.facing side = node .red near entry far := by
  cases tree with
  | nil => cases h
  | node color left entry right =>
    cases h
    cases side <;> exact ⟨_, _, _, rfl⟩

/-- From the other side, the two subtrees change their roles. -/
theorem join_opposite (side : Side) (color : Color) (near : Tree α) (entry : α)
    (far : Tree α) : join side.opposite color near entry far = join side color far entry near := by
  cases side <;> rfl

@[simp]
theorem color_join (side : Side) (color : Color) (near : Tree α) (entry : α) (far : Tree α) :
    (join side color near entry far).color = color := by
  cases side <;> rfl

@[simp]
theorem paint_join (side : Side) (color new : Color) (near : Tree α) (entry : α)
    (far : Tree α) : (join side color near entry far).paint new = join side new near entry far := by
  cases side <;> rfl

@[simp]
theorem toList_paint (new : Color) (tree : Tree α) : (tree.paint new).toList = tree.toList := by
  cases tree <;> rfl

theorem paint_eq_self {tree : Tree α} {color : Color} (h : tree.color = color) :
    tree.paint color = tree := by
  cases tree with
  | nil => rfl
  | node => rw [paint, ← h, Tree.color]

theorem color_paint_black (tree : Tree α) : (tree.paint .black).color = .black := by
  cases tree <;> rfl

theorem toList_rotate (side : Side) {c d c' d' : Color} {near inner far : Tree α} {x y : α} :
    (join side c near x (join side d inner y far)).toList =
      (join side d' (join side c' near x inner) y far).toList := by
  cases side <;> simp [join, toList]

/-! ## Frames and paths -/

/-- A node without the subtree on one side. -/
structure Frame (α : Type) where
  /-- The side of the missing subtree. -/
  side : Side
  /-- The colour of the node. -/
  color : Color
  /-- The entry of the node. -/
  entry : α
  /-- The subtree on the other side. -/
  sibling : Tree α

/-- Put a tree into the missing place of a frame. -/
def Frame.close (frame : Frame α) (tree : Tree α) : Tree α :=
  join frame.side frame.color tree frame.entry frame.sibling

/-- The frame of the sibling, which has a tree in the place of this frame on its other
side. -/
def Frame.across (frame : Frame α) (tree : Tree α) : Frame α :=
  { frame with side := frame.side.opposite, sibling := tree }

/-- A closed frame can be opened on the side of the sibling. -/
@[simp]
theorem Frame.close_across (frame : Frame α) (tree : Tree α) :
    (frame.across tree).close frame.sibling = frame.close tree :=
  join_opposite ..

/-- The left subtree of a frame that is closed around a tree. -/
def Frame.left (frame : Frame α) (tree : Tree α) : Tree α :=
  match frame.side with
  | .left => tree
  | .right => frame.sibling

/-- The right subtree of a frame that is closed around a tree. -/
def Frame.right (frame : Frame α) (tree : Tree α) : Tree α :=
  match frame.side with
  | .left => frame.sibling
  | .right => tree

theorem Frame.close_eq_node (frame : Frame α) (tree : Tree α) :
    frame.close tree = node frame.color (frame.left tree) frame.entry (frame.right tree) := by
  rcases frame with ⟨_ | _, _, _, _⟩ <;> rfl

theorem Frame.color_close (frame : Frame α) (tree : Tree α) :
    (frame.close tree).color = frame.color :=
  color_join ..

theorem Frame.paint_close (frame : Frame α) (new : Color) (tree : Tree α) :
    (frame.close tree).paint new = ({ frame with color := new } : Frame α).close tree :=
  paint_join ..

/-- A place in a tree: the frames around it, lowest first. -/
abbrev Path (α : Type) := List (Frame α)

/-- Put a tree into the place at the end of a path. -/
def under : Tree α → Path α → Tree α
  | tree, [] => tree
  | tree, frame :: path => (frame.close tree).under path

@[simp]
theorem under_nil (tree : Tree α) : tree.under [] = tree := rfl

@[simp]
theorem under_cons (tree : Tree α) (frame : Frame α) (path : Path α) :
    tree.under (frame :: path) = (frame.close tree).under path := rfl

/-- The tree in a place can be seen from the place of the sibling. -/
theorem under_across (tree : Tree α) (frame : Frame α) (path : Path α) :
    frame.sibling.under (frame.across tree :: path) = tree.under (frame :: path) := by
  rw [under_cons, Frame.close_across, under_cons]

/-- A path continued by another leads there in two steps. -/
@[simp]
theorem under_append (tree : Tree α) (path rest : Path α) :
    tree.under (path ++ rest) = (tree.under path).under rest := by
  induction path generalizing tree with
  | nil => rfl
  | cons frame path ih => exact ih (frame.close tree)

/-- The root is the last frame. -/
theorem color_under {tree : Tree α} {path : Path α} {frame : Frame α}
    (h : frame ∈ path.getLast?) : (tree.under path).color = frame.color := by
  induction path generalizing tree with
  | nil => cases h
  | cons lowest path ih =>
    cases path with
    | nil =>
      cases h
      exact color_join ..
    | cons upper path => exact ih h

/-- Every frame is a node of the tree. -/
theorem length_add_size_le (tree : Tree α) (path : Path α) :
    path.length + tree.size ≤ (tree.under path).size := by
  induction path generalizing tree with
  | nil => simp
  | cons frame path ih =>
    -- closing a frame adds its node to the tree below
    have hclose : tree.size + 1 ≤ (frame.close tree).size := by
      obtain ⟨side, color, entry, sibling⟩ := frame
      cases side <;> simp only [Frame.close, join, size] <;> omega
    have h := ih (frame.close tree)
    rw [under_cons, List.length_cons]
    omega

namespace Path

/-- The entries to the left of a place, in order. -/
def before : Path α → List α
  | [] => []
  | ⟨.left, _, _, _⟩ :: path => before path
  | ⟨.right, _, entry, sibling⟩ :: path => before path ++ (sibling.toList ++ [entry])

/-- The entries to the right of a place, in order. -/
def after : Path α → List α
  | [] => []
  | ⟨.left, _, entry, sibling⟩ :: path => entry :: sibling.toList ++ after path
  | ⟨.right, _, _, _⟩ :: path => after path

/-- The entry of a frame on the left lies to the right of the place. -/
theorem entry_mem_after {path : Path α} {frame : Frame α} (h : frame ∈ path)
    (hside : frame.side = .left) : frame.entry ∈ after path := by
  induction path with
  | nil => cases h
  | cons lowest path ih =>
    obtain ⟨side, color, entry, sibling⟩ := lowest
    rcases List.mem_cons.1 h with rfl | hrest
    · cases hside
      exact List.mem_cons_self
    · cases side with
      | left => exact List.mem_append_right _ (ih hrest)
      | right => exact ih hrest

/-- The entry of a frame on the right lies to the left of the place. -/
theorem entry_mem_before {path : Path α} {frame : Frame α} (h : frame ∈ path)
    (hside : frame.side = .right) : frame.entry ∈ before path := by
  induction path with
  | nil => cases h
  | cons lowest path ih =>
    obtain ⟨side, color, entry, sibling⟩ := lowest
    rcases List.mem_cons.1 h with rfl | hrest
    · cases hside
      exact List.mem_append_right _ (List.mem_append_right _ List.mem_cons_self)
    · cases side with
      | left => exact ih hrest
      | right => exact List.mem_append_left _ (ih hrest)

end Path

/-- The entries of a tree stand between those to the left and those to the right of its
place. -/
theorem toList_under (tree : Tree α) (path : Path α) :
    (tree.under path).toList = Path.before path ++ tree.toList ++ Path.after path := by
  induction path generalizing tree with
  | nil => simp [Path.before, Path.after]
  | cons frame path ih =>
    obtain ⟨side, color, entry, sibling⟩ := frame
    cases side <;> simp [ih, Frame.close, join, toList, Path.before, Path.after]

/-- Every entry has its place in the tree. -/
theorem exists_under_of_mem {tree : Tree α} {a : α} (h : a ∈ tree.toList) (path : Path α) :
    ∃ color left right place, (node color left a right).under place = tree.under path := by
  induction tree generalizing path with
  | nil => cases h
  | node color left entry right ihl ihr =>
    rcases List.mem_append.1 h with hleft | hmem
    · exact ihl hleft (⟨.left, color, entry, right⟩ :: path)
    rcases List.mem_cons.1 hmem with rfl | hright
    · exact ⟨color, left, right, path, rfl⟩
    · exact ihr hright (⟨.right, color, entry, left⟩ :: path)

theorem toList_under_congr {tree other : Tree α} (h : tree.toList = other.toList)
    (path : Path α) : (tree.under path).toList = (other.under path).toList := by
  rw [toList_under, toList_under, h]

/-! ## Spines -/

/-- The path from a place down one side of the tree in it, to the empty place at the end. -/
def spine (side : Side) : Tree α → Path α → Path α
  | nil, path => path
  | node color left entry right, path =>
    match side with
    | .left => left.spine side (⟨.left, color, entry, right⟩ :: path)
    | .right => right.spine side (⟨.right, color, entry, left⟩ :: path)

/-- A spine leaves the tree as it is. -/
@[simp]
theorem nil_under_spine (side : Side) (tree : Tree α) (path : Path α) :
    nil.under (tree.spine side path) = tree.under path := by
  induction tree generalizing path with
  | nil => rfl
  | node color left entry right ihl ihr => cases side <;> simp [spine, ihl, ihr, Frame.close, join]

/-- A spine can be taken first and continued by the path afterwards. -/
theorem spine_eq_append (side : Side) (tree : Tree α) (path : Path α) :
    tree.spine side path = tree.spine side [] ++ path := by
  induction tree generalizing path with
  | nil => rfl
  | node color left entry right ihl ihr =>
    cases side with
    | left => rw [spine, ihl, spine, ihl [_]]; simp
    | right => rw [spine, ihr, spine, ihr [_]]; simp

/-- Only the empty tree has an empty spine. -/
theorem eq_nil_of_spine_eq_nil {side : Side} {tree : Tree α} (h : tree.spine side [] = []) :
    tree = nil := by
  cases tree with
  | nil => rfl
  | node color left entry right =>
    cases side with
    | left =>
      rw [spine, spine_eq_append] at h
      exact absurd (List.append_eq_nil_iff.1 h).2 (List.cons_ne_nil _ _)
    | right =>
      rw [spine, spine_eq_append] at h
      exact absurd (List.append_eq_nil_iff.1 h).2 (List.cons_ne_nil _ _)

/-- The spine below a frame begins in the tree, or with the frame if the tree is empty. -/
theorem of_spine_singleton_eq_cons {side : Side} {tree : Tree α} {last frame : Frame α}
    {path : Path α} (h : tree.spine side [last] = frame :: path) :
    (tree = nil ∧ frame = last) ∨ ∃ rest, tree.spine side [] = frame :: rest := by
  cases tree with
  | nil =>
    cases h
    exact .inl ⟨rfl, rfl⟩
  | node color left entry right =>
    cases hspine : (node color left entry right).spine side [] with
    | nil => cases eq_nil_of_spine_eq_nil hspine
    | cons first rest =>
      -- the spine starts inside the tree, so `last` is never its first frame
      rw [spine_eq_append, hspine] at h
      cases h
      exact .inr ⟨rest, rfl⟩

/-- A tree is the lowest frame of its spine, closed around nothing, in the place above it. -/
theorem eq_under_of_spine_eq_cons {side : Side} {tree : Tree α} {frame : Frame α} {path : Path α}
    (h : tree.spine side [] = frame :: path) : tree = (frame.close nil).under path := by
  rw [← under_cons, ← h, nil_under_spine, under_nil]

/-- Every frame of a spine misses its subtree on the side of the spine. -/
theorem side_of_mem_spine {side : Side} {tree : Tree α} {frame : Frame α}
    (h : frame ∈ tree.spine side []) : frame.side = side := by
  induction tree with
  | nil => simp [spine] at h
  | node color left entry right ihl ihr =>
    cases side with
    | left =>
      rw [spine, spine_eq_append, List.mem_append, List.mem_singleton] at h
      rcases h with h | rfl
      · exact ihl h
      · rfl
    | right =>
      rw [spine, spine_eq_append, List.mem_append, List.mem_singleton] at h
      rcases h with h | rfl
      · exact ihr h
      · rfl

/-- Nothing of a tree lies before the place at the end of its left spine. -/
theorem before_spine_left (tree : Tree α) (path : Path α) :
    Path.before (tree.spine .left path) = Path.before path := by
  induction tree generalizing path with
  | nil => rfl
  | node color left entry right ihl ihr => rw [spine, ihl]; rfl

theorem after_spine_left (tree : Tree α) (path : Path α) :
    Path.after (tree.spine .left path) = tree.toList ++ Path.after path := by
  induction tree generalizing path with
  | nil => rfl
  | node color left entry right ihl ihr => simp [spine, ihl, Path.after, toList]

theorem after_spine_right (tree : Tree α) (path : Path α) :
    Path.after (tree.spine .right path) = Path.after path := by
  induction tree generalizing path with
  | nil => rfl
  | node color left entry right ihl ihr => rw [spine, ihr]; rfl

/-- The lowest frame of a spine holds the outermost entry, and around it are all others. -/
theorem toList_of_spine_eq_cons {side : Side} {tree : Tree α} {frame : Frame α} {path : Path α}
    (h : tree.spine side [] = frame :: path) :
    tree.toList = side.attach frame.entry (Path.before path ++ (frame.left nil).toList ++
      (frame.right nil).toList ++ Path.after path) := by
  have hside : frame.side = side := side_of_mem_spine (h ▸ List.mem_cons_self)
  have hlist := congrArg toList (nil_under_spine side tree [])
  rw [under_nil, h, under_cons, toList_under] at hlist
  obtain ⟨frameSide, color, entry, sibling⟩ := frame
  cases hside
  -- nothing lies beyond the end of the spine
  cases frameSide with
  | left =>
    have hbefore := before_spine_left tree []
    rw [h] at hbefore
    simp only [Path.before] at hbefore
    rw [← hlist, hbefore]
    rfl
  | right =>
    have hafter := after_spine_right tree []
    rw [h] at hafter
    simp only [Path.after] at hafter
    rw [← hlist, hafter]
    simp [Side.attach, Frame.close, join, Frame.left, Frame.right, toList]

/-! ## Stepping from place to place -/

namespace Path

/-- The side on which a place hangs from its owner; the root counts as hanging on the left. -/
def side : Path α → Side
  | [] => .left
  | frame :: _ => frame.side

/-- The lowest frame of a path is on the side from which the place hangs. -/
theorem side_of_mem_head? {path : Path α} {frame : Frame α} (h : frame ∈ path.head?) :
    frame.side = side path := by
  cases path with
  | nil => cases h
  | cons first path =>
    cases h
    rfl

/-- The entries at which a path turns left, lowest first. -/
def turns : Path α → List α
  | [] => []
  | ⟨.left, _, entry, _⟩ :: path => entry :: turns path
  | ⟨.right, _, _, _⟩ :: path => turns path

/-- The entries at which a path turns left are some of those on the path. -/
theorem turns_sublist (path : Path α) : (turns path).Sublist (List.map Frame.entry path) := by
  induction path with
  | nil => exact .slnil
  | cons frame path ih =>
    obtain ⟨side, color, entry, sibling⟩ := frame
    cases side with
    | left => exact ih.cons_cons entry
    | right => exact ih.cons entry

/-- The lowest frame of a path on one side, with the tree that lies in it and the path above
it; `tree` is what lies in the place at the end of the path. -/
def climb (side : Side) : Path α → Tree α → Option (Tree α × Frame α × Path α)
  | [], _ => none
  | frame :: path, tree =>
    -- the tree below grows by every frame that lies on the other side
    if frame.side = side then some (tree, frame, path) else climb side path (frame.close tree)

/-- Climbing to the right passes a spine on the left. -/
theorem climb_right_spine_left (tree : Tree α) (path : Path α) :
    climb .right (tree.spine .left path) nil = climb .right path tree := by
  induction tree generalizing path with
  | nil => rfl
  | node color left entry right ihl ihr => exact ihl (⟨.left, color, entry, right⟩ :: path)

/-- The turns to the left on a spine, and then those on the path to it. -/
theorem turns_spine_left (tree : Tree α) (path : Path α) :
    turns (tree.spine .left path) = turns (tree.spine .left []) ++ turns path := by
  induction tree generalizing path with
  | nil => rfl
  | node color left entry right ihl ihr =>
    rw [spine, ihl, spine, ihl [_], List.append_assoc]
    rfl

/-- The empty place right after a frame, which has `below` on its left side and takes a new
entry. -/
def pass (below : Tree α) (frame : Frame α) (entry : α) (path : Path α) : Path α :=
  frame.sibling.spine .left (⟨.right, frame.color, entry, below⟩ :: path)

/-- A path that never turns left has nothing to its right. -/
theorem of_climb_left_eq_none {path : Path α} {tree : Tree α} (h : climb .left path tree = none) :
    turns path = [] ∧ after path = [] := by
  induction path generalizing tree with
  | nil => exact ⟨rfl, rfl⟩
  | cons frame path ih =>
    obtain ⟨side, color, entry, sibling⟩ := frame
    cases side with
    | left => cases h
    | right => exact ih h

/-- A path that never turns right has nothing to its left. -/
theorem of_climb_right_eq_none {path : Path α} {tree : Tree α}
    (h : climb .right path tree = none) : before path = [] := by
  induction path generalizing tree with
  | nil => rfl
  | cons frame path ih =>
    obtain ⟨side, color, entry, sibling⟩ := frame
    cases side with
    | left => exact ih h
    | right => cases h

/-- Where climbing ends, the frame and the tree that lies in it make up all that was passed
on the way. -/
theorem of_climb_eq_some {side : Side} {path up : Path α} {tree below : Tree α} {frame : Frame α}
    (h : climb side path tree = some (below, frame, up)) :
    frame.side = side ∧ tree.under path = (frame.close below).under up := by
  induction path generalizing tree with
  | nil => cases h
  | cons lowest path ih =>
    rw [climb] at h
    split at h
    · next hside =>
      cases h
      exact ⟨hside, rfl⟩
    · exact ih h

/-- The lowest frame on the left is the first turn to the left and the first entry to the
right of the place. -/
theorem of_climb_left_eq_some {path up : Path α} {tree below : Tree α} {frame : Frame α}
    (h : climb .left path tree = some (below, frame, up)) :
    turns path = frame.entry :: turns up ∧
      before path ++ tree.toList = before up ++ below.toList ∧
      after path = frame.entry :: frame.sibling.toList ++ after up := by
  induction path generalizing tree with
  | nil => cases h
  | cons lowest path ih =>
    obtain ⟨side, color, entry, sibling⟩ := lowest
    cases side with
    | left =>
      cases h
      exact ⟨rfl, rfl, rfl⟩
    | right =>
      obtain ⟨hturns, hbefore, hafter⟩ := ih h
      -- a frame on the right goes over into the tree below
      refine ⟨hturns, ?_, hafter⟩
      rw [← hbefore]
      simp [before, Frame.close, join, toList]

/-- The lowest frame on the right is the last entry to the left of the place. -/
theorem of_climb_right_eq_some {path up : Path α} {tree below : Tree α} {frame : Frame α}
    (h : climb .right path tree = some (below, frame, up)) :
    before path = before up ++ (frame.sibling.toList ++ [frame.entry]) ∧
      tree.toList ++ after path = below.toList ++ after up := by
  induction path generalizing tree with
  | nil => cases h
  | cons lowest path ih =>
    obtain ⟨side, color, entry, sibling⟩ := lowest
    cases side with
    | right =>
      cases h
      exact ⟨rfl, rfl⟩
    | left =>
      obtain ⟨hbefore, hafter⟩ := ih h
      refine ⟨hbefore, ?_⟩
      rw [← hafter]
      simp [after, Frame.close, join, toList]

section

variable {path up : Path α} {below : Tree α} {frame : Frame α} (entry : α)

/-- Passing a frame leaves the tree as it is, but for its entry. -/
theorem nil_under_pass (hside : frame.side = .left) :
    nil.under (pass below frame entry up) =
      (({ frame with entry } : Frame α).close below).under up := by
  obtain ⟨side, color, old, sibling⟩ := frame
  cases hside
  rw [pass, nil_under_spine]
  rfl

/-- The frame that was passed is the lowest one on the right of the new place. -/
theorem climb_right_pass :
    climb .right (pass below frame entry up) nil =
      some (frame.sibling, ⟨.right, frame.color, entry, below⟩, up) := by
  rw [pass, climb_right_spine_left]
  rfl

/-- The turns to the left do not depend on the entry of the frame that was passed. -/
theorem turns_pass (other : α) :
    turns (pass below frame entry up) = turns (pass below frame other up) := by
  rw [pass, turns_spine_left _ (_ :: _), pass, turns_spine_left _ (_ :: _)]
  rfl

variable (h : climb .left path nil = some (below, frame, up))

include h

/-- Before the new place lies one entry more. -/
theorem before_pass : before (pass below frame entry up) = before path ++ [entry] := by
  obtain ⟨-, hbefore, -⟩ := of_climb_left_eq_some h
  rw [pass, before_spine_left, before, ← List.append_assoc, ← hbefore]
  simp [toList]

/-- After the new place lies one entry less. -/
theorem after_eq_cons_of_climb : after path = frame.entry :: after (pass below frame entry up) := by
  obtain ⟨-, -, hafter⟩ := of_climb_left_eq_some h
  rw [pass, after_spine_left, hafter]
  rfl

end

end Path

end Tree

end RedBlack
