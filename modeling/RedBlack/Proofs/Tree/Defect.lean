import RedBlack.Proofs.Tree.Height

/-!
# Trees with One Defect

A tree that breaks the colouring rules in a single place: a red node may hang from a red parent
or be the root there (`RedRulesBut`), or the paths through the place may be one black node short
(`ShortAt`).

Outside of the place such a tree keeps all rules (`KeptOutside`), so the path to the place
accepts what the rules ask for there (`KeptOutside.accepts`), and what lies in the place is
balanced in itself (`RedRulesBut.balanced`). The repairs of a red node and of a shortage start
from exactly this.

Whether a tree has such a defect can be decided, since it has finitely many places (`places`).
-/

namespace RedBlack

namespace Tree

variable {α : Type} {tree inner low : Tree α} {frame : Frame α} {path : Path α} {c : Color}
  {n : Nat}

/-! ## Defects -/

/-- A red node is neither the root nor the child of a red one, unless it lies in the place at the
end of `path`. -/
structure RedRulesBut (path : Path α) (tree : Tree α) : Prop where
  /-- A red child of a red node lies in the place. -/
  child : ∀ (inner : Tree α) frame above, inner.under (frame :: above) = tree →
    frame.color = .red → inner.color = .red → frame :: above = path
  /-- A red root lies in the place. -/
  root : tree.color = .red → path = []

/-- Every path to an empty place crosses `n` black nodes. -/
def BlackHeight (tree : Tree α) (n : Nat) : Prop :=
  ∀ gap : Path α, nil.under gap = tree → gap.countP (·.color = .black) = n

/-- Every path to an empty place crosses `n` black nodes, but those through the place at the end
of `path` cross one black node less. -/
structure ShortAt (path : Path α) (tree : Tree α) (n : Nat) : Prop where
  /-- Through the place, a black node is missing. -/
  through : ∀ gap : Path α, nil.under gap = tree → path <:+ gap →
    gap.countP (·.color = .black) + 1 = n
  /-- Past the place, none is. -/
  past : ∀ gap : Path α, nil.under gap = tree → ¬ path <:+ gap →
    gap.countP (·.color = .black) = n

/-- Outside of the place at the end of `path`, a tree keeps the colouring rules. -/
structure KeptOutside (path : Path α) (tree : Tree α) (n : Nat) : Prop where
  /-- A red child of a red node lies within the place. -/
  child : ∀ (inner : Tree α) frame above, inner.under (frame :: above) = tree →
    frame.color = .red → inner.color = .red → path <:+ frame :: above
  /-- A red root lies in the place. -/
  root : tree.color = .red → path = []
  /-- Paths past the place cross `n` black nodes. -/
  past : ∀ gap : Path α, nil.under gap = tree → ¬ path <:+ gap →
    gap.countP (·.color = .black) = n

/-! ## Places side by side -/

/-- No place below the sibling of a frame is one below the frame. -/
theorem not_suffix_append_across (frame : Frame α) (tree : Tree α) (path below : Path α) :
    ¬ frame :: path <:+ below ++ frame.across tree :: path := by
  rintro ⟨upper, h⟩
  obtain ⟨-, hcons⟩ := List.append_inj' h rfl
  -- the two frames look at their node from different sides
  have hside : frame.side = frame.side.opposite := congrArg Frame.side (List.cons.inj hcons).1
  exact Side.opposite_ne frame.side hside.symm

/-- A tree whose red nodes have no red children, and whose paths to empty places cross `n` black
nodes, is balanced. -/
theorem balanced_of_blackHeight
    (hred : ∀ (inner : Tree α) frame above, inner.under (frame :: above) = tree →
      frame.color = .red → inner.color ≠ .red)
    (hblack : tree.BlackHeight n) : Balanced tree tree.color n := by
  have hcolor : ∀ (inner : Tree α) frame above, inner.under (frame :: above) = tree →
      frame.color = .red → inner.color = .black := by
    intro inner frame above htree hframe
    cases h : inner.color with
    | red => exact absurd h (hred inner frame above htree hframe)
    | black => rfl
  refine balanced_of_countP_black (fun left entry right place hplace => ⟨?_, ?_⟩) hblack
  · exact hcolor left ⟨.left, .red, entry, right⟩ place hplace rfl
  · exact hcolor right ⟨.right, .red, entry, left⟩ place hplace rfl

namespace KeptOutside

/-- A larger place has less outside of it. -/
theorem up (h : KeptOutside (frame :: path) tree n) : KeptOutside path tree n where
  child inner other above htree hother hinner :=
    (List.suffix_cons frame path).trans (h.child inner other above htree hother hinner)
  root hred := absurd (h.root hred) (List.cons_ne_nil _ _)
  past gap hgap hpath := h.past gap hgap fun hsuffix =>
    hpath ((List.suffix_cons frame path).trans hsuffix)

section

variable (h : KeptOutside (frame :: path) (low.under (frame :: path)) n)

include h

/-- A path to an empty place in the sibling, continued to the root. -/
theorem countP_sibling {gap : Path α} (hgap : nil.under gap = frame.sibling) :
    gap.countP (·.color = .black) + (frame :: path).countP (·.color = .black) = n := by
  have hplace : nil.under (gap ++ frame.across low :: path) = low.under (frame :: path) := by
    rw [under_append, hgap, under_across]
  have hcount := h.past _ hplace (not_suffix_append_across frame low path gap)
  rw [List.countP_append] at hcount
  -- the node is the same from both of its sides
  rwa [List.countP_cons] at hcount ⊢

/-- The sibling of the place is balanced. -/
theorem balanced_sibling :
    Balanced frame.sibling frame.sibling.color
      (n - (frame :: path).countP (·.color = .black)) := by
  refine balanced_of_blackHeight (fun inner other above hinner hother hred => ?_) fun gap hgap => ?_
  · have hplace : inner.under (other :: above ++ frame.across low :: path) =
        low.under (frame :: path) := by
      rw [under_append, hinner, under_across]
    exact not_suffix_append_across frame low path (other :: above)
      (h.child inner other _ hplace hother hred)
  · have hcount := h.countP_sibling hgap
    omega

/-- The sibling of a place below a red node is black. -/
theorem color_sibling (hred : frame.color = .red) : frame.sibling.color = .black := by
  cases hsibling : frame.sibling.color with
  | black => rfl
  | red =>
    exact absurd (h.child frame.sibling (frame.across low) path (under_across low frame path) hred
      hsibling) (not_suffix_append_across frame low path [])

/-- A red node above the place has a black parent. -/
theorem head?_black (hred : frame.color = .red) : ∃ upper ∈ path.head?, upper.color = .black := by
  cases path with
  | nil =>
    have hroot : (low.under [frame]).color = .red := (Frame.color_close frame low).trans hred
    exact absurd (h.root hroot) (List.cons_ne_nil _ _)
  | cons upper path =>
    refine ⟨upper, rfl, ?_⟩
    cases hupper : upper.color with
    | black => rfl
    | red =>
      -- otherwise the place would be below its own parent's place
      have hcolor : (frame.close low).color = .red := (Frame.color_close frame low).trans hred
      have hle := (h.child (frame.close low) upper path rfl hupper hcolor).length_le
      rw [List.length_cons] at hle
      omega

end

/-- The path to the place accepts a tree with the black nodes that are missing below it, and if
the place hangs from a black node also one with a red root. -/
theorem accepts (h : KeptOutside path (low.under path) n)
    (hcolor : c = .red → ∃ upper ∈ path.head?, upper.color = .black) :
    Accepts path c (n - path.countP (·.color = .black)) n := by
  induction path generalizing low c with
  | nil =>
    cases c with
    | red =>
      obtain ⟨upper, hupper, -⟩ := hcolor rfl
      cases hupper
    | black => exact .root
  | cons frame path ih =>
    have hup : KeptOutside path ((frame.close low).under path) n := h.up
    have hsibling := h.balanced_sibling
    cases hframe : frame.color with
    | red =>
      rw [List.countP_cons_of_neg (by simp [hframe])] at hsibling ⊢
      rw [h.color_sibling hframe] at hsibling
      cases c with
      | red =>
        obtain ⟨upper, hupper, hblack⟩ := hcolor rfl
        cases hupper
        cases hframe.symm.trans hblack
      | black => exact .red hframe hsibling (ih hup fun _ => h.head?_black hframe)
    | black =>
      have hcount := h.countP_sibling (nil_under_spine .left frame.sibling [])
      rw [List.countP_cons_of_pos (by simp [hframe])] at hsibling hcount ⊢
      refine .black hframe hsibling ?_
      -- the frame itself is one of the black nodes on the path
      have hsucc : n - (path.countP (·.color = .black) + 1) + 1 =
          n - path.countP (·.color = .black) := by
        omega
      rw [hsucc]
      exact ih hup nofun

end KeptOutside

/-! ## What lies in the place -/

/-- What lies in the place is balanced if its paths to empty places cross as many black nodes. -/
theorem RedRulesBut.balanced (h : RedRulesBut path (low.under path)) (hblack : low.BlackHeight n) :
    Balanced low low.color n := by
  refine balanced_of_blackHeight (fun inner frame above hinner hframe hred => ?_) hblack
  have hplace : inner.under (frame :: (above ++ path)) = low.under path := by
    rw [← List.cons_append, under_append, hinner]
  -- a node further down lies deeper than the place itself
  have hlength := congrArg List.length (h.child inner frame _ hplace hframe hred)
  rw [List.length_cons, List.length_append] at hlength
  omega

/-- Where only the red rules may be broken, the paths to empty places within the place are those
of the tree without the path to it. -/
theorem BlackHeight.of_under (h : (low.under path).BlackHeight n) :
    low.BlackHeight (n - path.countP (·.color = .black)) := by
  intro gap hgap
  have hcount := h (gap ++ path) (by rw [under_append, hgap])
  rw [List.countP_append] at hcount
  omega

/-- In the place of a shortage, a black node is missing on every path. -/
theorem ShortAt.exists_blackHeight (h : ShortAt path (low.under path) n) :
    ∃ k, low.BlackHeight k ∧ n - path.countP (·.color = .black) = k + 1 := by
  have hgap : ∀ gap, nil.under gap = low →
      gap.countP (·.color = .black) + path.countP (·.color = .black) + 1 = n := by
    intro gap hgap
    have hcount := h.through (gap ++ path) (by rw [under_append, hgap])
      (List.suffix_append gap path)
    rwa [List.countP_append] at hcount
  have hspine := hgap _ (nil_under_spine .left low [])
  refine ⟨n - path.countP (·.color = .black) - 1, fun gap hplace => ?_, ?_⟩
  · have hcount := hgap gap hplace
    omega
  · omega

/-- Rules that are broken in the place only are kept outside of it. -/
theorem RedRulesBut.keptOutside (h : RedRulesBut path tree)
    (hpast : ∀ gap : Path α, nil.under gap = tree → ¬ path <:+ gap →
      gap.countP (·.color = .black) = n) : KeptOutside path tree n where
  child inner frame above htree hframe hinner :=
    h.child inner frame above htree hframe hinner ▸ List.suffix_refl _
  root := h.root
  past := hpast

/-- A red node that is misplaced can be settled: it is balanced, and the path to it accepts a
black node there. -/
theorem RedRulesBut.exists_accepts (h : RedRulesBut path (low.under path))
    (hblack : (low.under path).BlackHeight n) :
    ∃ k, Balanced low low.color k ∧ Accepts path .black k n :=
  ⟨_, h.balanced hblack.of_under, (h.keptOutside fun gap hgap _ => hblack gap hgap).accepts nofun⟩

/-- A shortage can be settled: what lies in the place is balanced, and the path to it accepts a
black node more. -/
theorem RedRulesBut.exists_accepts_of_shortAt (h : RedRulesBut path (low.under path))
    (hshort : ShortAt path (low.under path) n) :
    ∃ k, Balanced low low.color k ∧ Accepts path .black (k + 1) n := by
  obtain ⟨k, hlow, hk⟩ := hshort.exists_blackHeight
  have haccepts := (h.keptOutside hshort.past).accepts (c := .black) nofun
  exact ⟨k, h.balanced hlow, hk ▸ haccepts⟩

/-! ## Deciding a defect -/

deriving instance DecidableEq for Frame

/-- All places in a tree that lies at the end of `path`, each with what lies in it. -/
def places : Tree α → Path α → List (Tree α × Path α)
  | nil, path => [(nil, path)]
  | node color left entry right, path =>
    (node color left entry right, path) :: (left.places (⟨.left, color, entry, right⟩ :: path) ++
      right.places (⟨.right, color, entry, left⟩ :: path))

/-- The tree lies in its own uppermost place. -/
theorem mem_places_self (tree : Tree α) (path : Path α) : (tree, path) ∈ tree.places path := by
  cases tree <;> exact List.mem_cons_self

/-- Below a node in a place there are two more. -/
theorem mem_places_of_close {place : Path α} (h : (frame.close inner, place) ∈ tree.places path) :
    (inner, frame :: place) ∈ tree.places path := by
  obtain ⟨side, color, entry, sibling⟩ := frame
  induction tree generalizing path with
  | nil => cases side <;> cases List.mem_singleton.1 h
  | node c left e right ihl ihr =>
    rw [places, List.mem_cons, List.mem_append] at h ⊢
    obtain hself | hleft | hright := h
    · cases side with
      | left =>
        cases hself
        exact .inr (.inl (mem_places_self _ _))
      | right =>
        cases hself
        exact .inr (.inr (mem_places_self _ _))
    · exact .inr (.inl (ihl hleft))
    · exact .inr (.inr (ihr hright))

/-- A place together with what lies in it makes up the tree. -/
theorem under_of_mem_places {place : Path α} (h : (inner, place) ∈ tree.places path) :
    inner.under place = tree.under path := by
  induction tree generalizing path with
  | nil =>
    cases List.mem_singleton.1 h
    rfl
  | node color left entry right ihl ihr =>
    rw [places, List.mem_cons, List.mem_append] at h
    obtain hself | hleft | hright := h
    · cases hself
      rfl
    · exact ihl hleft
    · exact ihr hright

/-- The places of a tree are the ways to take it apart. -/
theorem mem_places_iff {place : Path α} :
    (inner, place) ∈ tree.places [] ↔ inner.under place = tree := by
  refine ⟨under_of_mem_places, fun h => ?_⟩
  induction place generalizing inner with
  | nil => exact h ▸ mem_places_self _ _
  | cons frame place ih => exact mem_places_of_close (ih h)

/-- A property of all paths to empty places is one of finitely many. -/
instance [DecidableEq α] {p : Path α → Prop} [DecidablePred p] :
    Decidable (∀ gap : Path α, nil.under gap = tree → p gap) :=
  decidable_of_iff (∀ place ∈ tree.places [], place.1 = nil → p place.2)
    ⟨fun h gap hgap => h (nil, gap) (mem_places_iff.2 hgap) rfl,
      fun h place hmem hnil => h place.2 (mem_places_iff.1 (hnil ▸ hmem))⟩

/-- The red rules, place by place. -/
theorem redRulesBut_iff :
    RedRulesBut path tree ↔
      (∀ place ∈ tree.places [], ∀ frame ∈ place.2.head?, frame.color = .red →
        place.1.color = .red → place.2 = path) ∧ (tree.color = .red → path = []) := by
  constructor
  · rintro ⟨hchild, hroot⟩
    refine ⟨fun ⟨inner, place⟩ hmem frame hframe => ?_, hroot⟩
    cases place with
    | nil => cases hframe
    | cons lowest above =>
      cases hframe
      exact hchild inner frame above (mem_places_iff.1 hmem)
  · rintro ⟨hplaces, hroot⟩
    exact ⟨fun inner frame above hinner =>
      hplaces (inner, frame :: above) (mem_places_iff.2 hinner) frame rfl, hroot⟩

instance [DecidableEq α] : Decidable (RedRulesBut path tree) :=
  decidable_of_iff _ redRulesBut_iff.symm

instance [DecidableEq α] : Decidable (BlackHeight tree n) :=
  inferInstanceAs (Decidable (∀ gap : Path α, nil.under gap = tree →
    gap.countP (·.color = .black) = n))

instance [DecidableEq α] : Decidable (ShortAt path tree n) :=
  decidable_of_iff
    ((∀ gap : Path α, nil.under gap = tree → path <:+ gap →
      gap.countP (·.color = .black) + 1 = n) ∧
    (∀ gap : Path α, nil.under gap = tree → ¬ path <:+ gap → gap.countP (·.color = .black) = n))
    ⟨fun h => ⟨h.1, h.2⟩, fun h => ⟨h.through, h.past⟩⟩

end Tree

end RedBlack
