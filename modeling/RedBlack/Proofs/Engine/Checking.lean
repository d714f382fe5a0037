import RedBlack.Proofs.Engine.Validation
import RedBlack.Proofs.SortedList.Access
import RedBlack.Proofs.Tree.Height

/-!
# Validating Arbitrary Trees

What `Engine.validate` does on a linked tree in any state: links may dangle, meet or form
cycles, and the counts may be anything. The check needs a comparator that follows an order
which is antisymmetric and in which `lt` is transitive; it then gives a black height exactly if
the linked tree is a red-black tree of this black height (`LinkedTree.Valid`), and it stops at a
fault otherwise (`Engine.validate_eq_ok_iff`).

* `Arena.Ancestry` — the parent links from a node up to the root. Each node on the way down has
  been found to name its owner, so no slot can come twice and the check never runs into its
  bound (`Ancestry.length_le`).
* `Tree.Between` — the keys of a subtree lie between the bounds that the check carries along
  (`between_node_iff`).
* `Engine.Decides` — an action gives an answer exactly if there is one that meets a
  specification, with one rule for each part of the check.
-/

namespace RedBlack

open RedBlack.Tree (Frame Path)

variable {σ K V α β : Type}

/-! ## Parent links -/

namespace Arena

variable {arena : Arena K V} {link parent : Link} {ids : List SlotId} {id : SlotId}

/-- The parent links lead from a link through the given slots up to a missing link. -/
def Ancestry (arena : Arena K V) : Link → List SlotId → Prop
  | link, [] => link = none
  | link, id :: rest =>
    link = some id ∧ ∃ node, arena.node? id = some node ∧ arena.Ancestry node.parent rest

namespace Ancestry

/-- There is only one way up. -/
theorem unique {others : List SlotId} (h : arena.Ancestry link ids)
    (h' : arena.Ancestry link others) : ids = others := by
  induction ids generalizing link others with
  | nil =>
    cases others with
    | nil => rfl
    | cons other others => cases Eq.trans (Eq.symm h) h'.1
  | cons id rest ih =>
    obtain ⟨rfl, node, hnode, hrest⟩ := h
    cases others with
    | nil => cases h'
    | cons other others =>
      obtain ⟨hother, node', hnode', hrest'⟩ := h'
      cases hother
      cases hnode.symm.trans hnode'
      rw [ih hrest hrest']

/-- From each slot on the way up, the way goes on. -/
theorem of_append {below : List SlotId} (h : arena.Ancestry link (below ++ id :: ids)) :
    arena.Ancestry (some id) (id :: ids) := by
  induction below generalizing link with
  | nil =>
    obtain ⟨rfl, hrest⟩ := h
    exact ⟨rfl, hrest⟩
  | cons first below ih =>
    obtain ⟨-, node, -, hrest⟩ := h
    exact ih hrest

/-- No slot comes twice: the way up from it would be its own proper part. -/
theorem nodup (h : arena.Ancestry link ids) : ids.Nodup := by
  induction ids generalizing link with
  | nil => exact List.nodup_nil
  | cons id rest ih =>
    have hself : arena.Ancestry (some id) (id :: rest) := ⟨rfl, h.2⟩
    obtain ⟨-, node, -, hrest⟩ := h
    refine List.nodup_cons.2 ⟨fun hmem => ?_, ih hrest⟩
    obtain ⟨below, above, rfl⟩ := List.append_of_mem hmem
    have hlength := congrArg List.length (hself.unique hrest.of_append)
    simp only [List.length_cons, List.length_append] at hlength
    omega

theorem exists_node (h : arena.Ancestry link ids) (hid : id ∈ ids) :
    ∃ node, arena.node? id = some node := by
  induction ids generalizing link with
  | nil => cases hid
  | cons first rest ih =>
    obtain ⟨-, node, hnode, hrest⟩ := h
    rcases List.mem_cons.1 hid with rfl | hid
    · exact ⟨node, hnode⟩
    · exact ih hrest hid

/-- The way up is not longer than there are slots. -/
theorem length_le (h : arena.Ancestry link ids) : ids.length ≤ arena.slots.size := by
  have hsubset : ids ⊆ List.range arena.slots.size := by
    intro id hid
    obtain ⟨node, hnode⟩ := h.exists_node hid
    exact List.mem_range.2 (lt_size_of_node? hnode)
  have hlength := (List.subperm_of_subset h.nodup hsubset).length_le
  rwa [List.length_range] at hlength

end Ancestry

end Arena

/-! ## Keys between bounds -/

namespace Tree

/-- The keys of a tree are ascending and lie strictly between two bounds, as far as there are
any. -/
structure Between (order : Order K) (low high : Option K) (tree : Tree (Cell K V)) : Prop where
  /-- Every key is greater than the lower bound. -/
  above : ∀ bound ∈ low, ∀ cell ∈ tree.toList, order bound cell.key = .lt
  /-- Every key is less than the upper bound. -/
  below : ∀ bound ∈ high, ∀ cell ∈ tree.toList, order cell.key bound = .lt
  /-- Every key is less than those after it. -/
  ascending : tree.toList.Pairwise fun first second => order first.key second.key = .lt

variable {order : Order K} {low high : Option K} {left right : Tree (Cell K V)} {cell : Cell K V}

theorem between_nil : Between order low high (nil : Tree (Cell K V)) where
  above := fun _ _ => List.forall_mem_nil _
  below := fun _ _ => List.forall_mem_nil _
  ascending := .nil

/-- The key of a node is a bound for both of its subtrees. Transitivity carries the inherited
bounds over to them. -/
theorem between_node_iff
    (htrans : ∀ a b c, order a b = .lt → order b c = .lt → order a c = .lt) (color : Color) :
    Between order low high (node color left cell right) ↔
      ((∀ bound ∈ low, order bound cell.key = .lt) ∧ ∀ bound ∈ high, order cell.key bound = .lt) ∧
        Between order low (some cell.key) left ∧ Between order (some cell.key) high right := by
  have hmem : ∀ other : Cell K V, other ∈ (node color left cell right).toList ↔
      other ∈ left.toList ∨ other = cell ∨ other ∈ right.toList := by
    intro other
    rw [toList, List.mem_append, List.mem_cons]
  constructor
  · rintro ⟨habove, hbelow, hascending⟩
    simp only [hmem] at habove hbelow
    rw [toList, List.pairwise_append, List.pairwise_cons] at hascending
    obtain ⟨hl, ⟨hroot, hr⟩, hcross⟩ := hascending
    refine ⟨⟨fun bound h => ?_, fun bound h => ?_⟩, ⟨?_, ?_, hl⟩, ⟨?_, ?_, hr⟩⟩
    · exact habove bound h cell (.inr (.inl rfl))
    · exact hbelow bound h cell (.inr (.inl rfl))
    · exact fun bound h other hother => habove bound h other (.inl hother)
    · rintro _ ⟨⟩ other hother
      exact hcross other hother cell List.mem_cons_self
    · rintro _ ⟨⟩ other hother
      exact hroot other hother
    · exact fun bound h other hother => hbelow bound h other (.inr (.inr hother))
  · rintro ⟨⟨hlow, hhigh⟩, hleft, hright⟩
    have hl : ∀ other ∈ left.toList, order other.key cell.key = .lt := hleft.below _ rfl
    have hr : ∀ other ∈ right.toList, order cell.key other.key = .lt := hright.above _ rfl
    refine ⟨fun bound h other hother => ?_, fun bound h other hother => ?_, ?_⟩
    · rcases (hmem other).1 hother with hother | rfl | hother
      · exact hleft.above bound h other hother
      · exact hlow bound h
      · exact htrans _ _ _ (hlow bound h) (hr other hother)
    · rcases (hmem other).1 hother with hother | rfl | hother
      · exact htrans _ _ _ (hl other hother) (hhigh bound h)
      · exact hhigh bound h
      · exact hright.below bound h other hother
    · rw [toList, List.pairwise_append, List.pairwise_cons]
      refine ⟨hleft.ascending, ⟨hr, hright.ascending⟩, fun first hfirst second hsecond => ?_⟩
      rcases List.mem_cons.1 hsecond with rfl | hsecond
      · exact hl first hfirst
      · exact htrans _ _ _ (hl first hfirst) (hr second hsecond)

end Tree

/-! ## Actions that decide -/

/-- Reading a slot without a node is a fault of its own. -/
theorem LinkedTree.exists_node_eq_error {linked : LinkedTree K V} {id : SlotId}
    (h : linked.arena.node? id = none) :
    ∃ fault, node id linked = .error fault linked ∧ fault ≠ .endless := by
  rcases hget : linked.arena.get id with fault | stored
  · refine ⟨fault, by simp only [node, inspect, hget], ?_⟩
    rintro rfl
    unfold Arena.get at hget
    split at hget <;> cases hget
  · cases h.symm.trans (Arena.get_eq_ok_iff.1 hget)

namespace Engine

/-- The action has an answer on a linked tree exactly if some value meets `spec`. It then gives
this value, the only one there is, and leaves the linked tree as it is; otherwise it stops at a
fault, but not because it ran too long. -/
def Decides (action : EngineM σ K V α) (linked : LinkedTree K V) (spec : α → Prop) : Prop :=
  ∀ context : Context σ K V, context.tree = linked →
    (∃ answer after, action context = .ok answer after ∧ after.tree = linked ∧
      ∀ other, spec other ↔ other = answer) ∨
    ∃ fault after, action context = .error fault after ∧ fault ≠ .endless ∧ ∀ other, ¬ spec other

namespace Decides

variable {linked : LinkedTree K V} {order : Order K} {comparator : Comparator σ K}

theorem pure (answer : α) :
    Decides (Pure.pure answer : EngineM σ K V α) linked (· = answer) :=
  fun context h => .inl ⟨answer, context, rfl, h, fun _ => Iff.rfl⟩

theorem congr {action : EngineM σ K V α} {spec other : α → Prop} (h : Decides action linked spec)
    (hspec : ∀ answer, other answer ↔ spec answer) : Decides action linked other := by
  rwa [show other = spec from funext fun answer => propext (hspec answer)]

/-- Actions are followed one after the other. -/
theorem bind {action : EngineM σ K V α} {next : α → EngineM σ K V β} {spec : α → Prop}
    {specNext : α → β → Prop} (h : Decides action linked spec)
    (hnext : ∀ answer, spec answer → Decides (next answer) linked (specNext answer)) :
    Decides (action >>= next) linked fun b => ∃ a, spec a ∧ specNext a b := by
  intro context hcontext
  rcases h context hcontext with ⟨a, between, hok, hbetween, hspec⟩ | ⟨fault, after, herror, h⟩
  · have ha : spec a := (hspec a).2 rfl
    -- there is one answer to go on from, so the others need no thought
    have hiff : ∀ b, (∃ a, spec a ∧ specNext a b) ↔ specNext a b := by
      intro b
      constructor
      · rintro ⟨other, hother, hb⟩
        rwa [(hspec other).1 hother] at hb
      · exact fun hb => ⟨a, ha, hb⟩
    rcases hnext a ha between hbetween with ⟨b, after, hrest, hafter, hb⟩ | ⟨fault, after, hrest, h⟩
    · exact .inl ⟨b, after, (bind_of_ok hok).trans hrest, hafter, fun c => (hiff c).trans (hb c)⟩
    · refine .inr ⟨fault, after, (bind_of_ok hok).trans hrest, h.1, fun b hb => ?_⟩
      exact h.2 b ((hiff b).1 hb)
  · refine .inr ⟨fault, after, bind_of_error herror, h.1, ?_⟩
    rintro b ⟨a, ha, -⟩
    exact h.2 a ha

/-- Reading the tree. -/
theorem onTree {action : LinkM K V α} {answer : α} (h : action linked = .ok answer linked) :
    Decides (Engine.onTree action : EngineM σ K V α) linked (· = answer) := by
  rintro context rfl
  refine .inl ⟨answer, context, ?_, rfl, fun _ => Iff.rfl⟩
  simp only [Engine.onTree, h]

/-- Reading that fails. -/
theorem fault {action : LinkM K V α} {fault : Fault} (h : action linked = .error fault linked)
    (hfault : fault ≠ .endless) :
    Decides (Engine.onTree action : EngineM σ K V α) linked fun _ => False := by
  rintro context rfl
  refine .inr ⟨fault, context, ?_, hfault, fun _ => id⟩
  simp only [Engine.onTree, h]

/-- Only the node of an occupied slot can be read. -/
theorem node (id : SlotId) :
    Decides (Engine.onTree (LinkedTree.node id) : EngineM σ K V (Node K V)) linked
      (linked.arena.node? id = some ·) := by
  rcases hnode : linked.arena.node? id with _ | node
  · obtain ⟨fault, herror, hfault⟩ := LinkedTree.exists_node_eq_error hnode
    exact congr (Decides.fault herror hfault) fun _ => iff_of_false nofun not_false
  · refine congr (onTree (LinkedTree.node_of_node? hnode)) fun other => ?_
    rw [Option.some_inj, eq_comm]

/-- A rule that is broken stops the check. -/
theorem require (holds : Bool) (rule : Violation) :
    Decides (Engine.require holds rule : EngineM σ K V Unit) linked fun _ => holds = true := by
  intro context hcontext
  cases holds with
  | true => exact .inl ⟨(), context, rfl, hcontext, fun _ => iff_of_true rfl rfl⟩
  | false =>
    refine .inr ⟨_, context, rfl, nofun, ?_⟩
    rintro _ ⟨⟩

/-- The comparator gives the answer of its order. -/
theorem ask (hfollows : comparator.Follows order) (a b : K) :
    Decides (Engine.ask comparator a b : EngineM σ K V Ordering) linked (· = order a b) := by
  rintro ⟨tree, memory, trace, released⟩ rfl
  rcases hask : comparator a b memory with ⟨answer, memory'⟩
  have hanswer : answer = order a b := by
    rw [← hfollows a b memory, hask]
  refine .inl ⟨answer, ⟨tree, memory', trace, released⟩, ?_, rfl, fun other => ?_⟩
  · simp only [Engine.ask, hask]
  · rw [hanswer]

theorem requireBefore (hfollows : comparator.Follows order) (a b : K) :
    Decides (Engine.requireBefore comparator a b : EngineM σ K V Unit) linked
      fun _ => order a b = .lt := by
  refine congr (bind (ask hfollows a b) fun answer _ => require (answer == .lt) _) fun _ => ?_
  simp

/-- A key is compared with the bounds that there are. -/
theorem requireBetween (hfollows : comparator.Follows order) (low high : Option K) (key : K) :
    Decides (Engine.requireBetween comparator low high key : EngineM σ K V Unit) linked
      fun _ => (∀ bound ∈ low, order bound key = .lt) ∧ ∀ bound ∈ high, order key bound = .lt := by
  have hhigh : Decides (Engine.requireBetween comparator none high key : EngineM σ K V Unit)
      linked fun _ => ∀ bound ∈ high, order key bound = .lt := by
    cases high with
    | none => exact congr (pure ()) fun _ => by simp
    | some high => exact congr (requireBefore hfollows key high) fun _ => by simp
  cases low with
  | none => exact congr hhigh fun _ => by simp
  | some low =>
    refine congr (bind (requireBefore hfollows low key) fun _ _ => hhigh) fun _ => ?_
    simp

end Decides

end Engine

/-! ## Colours at the end of a link -/

/-- A link leads to a node of a colour; a missing link counts as black. -/
def Arena.Paints (arena : Arena K V) : Link → Color → Prop
  | none, color => color = .black
  | some id, color => ∃ node, arena.node? id = some node ∧ node.color = color

/-- A link to a stored tree leads to the colour of its root. -/
theorem Arena.Stores.paints_iff {arena : Arena K V} {parent : Link} {tree : Tree (Cell K V)}
    {color : Color} (h : arena.Stores parent tree) :
    arena.Paints tree.link color ↔ tree.color = color := by
  cases tree with
  | nil => exact eq_comm
  | node c left cell right =>
    obtain ⟨hnode, -⟩ := h
    constructor
    · rintro ⟨node, hnode', rfl⟩
      cases hnode.symm.trans hnode'
      rfl
    · rintro rfl
      exact ⟨_, hnode, rfl⟩

namespace Engine.Decides

variable {linked : LinkedTree K V}

/-- A link to an occupied slot, and a missing one, has a colour. -/
theorem isRed (link : Link) :
    Decides (Engine.onTree (LinkedTree.isRed link) : EngineM σ K V Bool) linked
      fun red => ∃ color, linked.arena.Paints link color ∧ red = (color == .red) := by
  cases link with
  | none =>
    refine congr (onTree rfl) fun red => ?_
    constructor
    · rintro ⟨_, rfl, rfl⟩
      rfl
    · rintro rfl
      exact ⟨.black, rfl, rfl⟩
  | some id =>
    rcases hnode : linked.arena.node? id with _ | node
    · obtain ⟨fault, herror, hfault⟩ := LinkedTree.exists_node_eq_error hnode
      have hred : LinkedTree.isRed (some id) linked = .error fault linked := by
        simp only [LinkedTree.isRed, Bind.bind, EStateM.bind, herror]
      refine congr (Decides.fault hred hfault) fun red => ?_
      simp [Arena.Paints, hnode]
    · have hred : LinkedTree.isRed (some id) linked = .ok (node.color == .red) linked :=
        LinkedTree.bind_of_ok (LinkedTree.node_of_node? hnode)
      refine congr (onTree hred) fun red => ?_
      simp [Arena.Paints, hnode]

/-- Whatever hangs from a red node is black. -/
theorem requireBlackChildren (node : Node K V) :
    Decides (Engine.requireBlackChildren node : EngineM σ K V Unit) linked fun _ =>
      node.color = .red →
        linked.arena.Paints node.left .black ∧ linked.arena.Paints node.right .black := by
  have hblack : ∀ color : Color, (!(color == .red)) = true ↔ color = .black := by
    intro color
    cases color <;> decide
  obtain ⟨key, value, color, parent, left, right⟩ := node
  cases color with
  | black => exact congr (pure ()) fun _ => by simp
  | red =>
    refine congr (bind (isRed left) fun _ _ => bind (require _ _) fun _ _ =>
      bind (isRed right) fun _ _ => require _ _) fun _ => ?_
    constructor
    · intro h
      obtain ⟨hl, hr⟩ := h rfl
      exact ⟨_, ⟨_, hl, rfl⟩, (), rfl, _, ⟨_, hr, rfl⟩, rfl⟩
    · rintro ⟨_, ⟨c, hl, rfl⟩, -, hc, _, ⟨d, hr, rfl⟩, hd⟩ -
      rw [(hblack c).1 hc] at hl
      rw [(hblack d).1 hd] at hr
      exact ⟨hl, hr⟩

end Engine.Decides

/-! ## The census of a subtree -/

/-- The links from `link` form a tree that passes the check with a census. -/
def Arena.Passes (arena : Arena K V) (order : Order K) (link parent : Link) (low high : Option K)
    (census : Engine.Census) : Prop :=
  ∃ (tree : Tree (Cell K V)) (c : Color) (n : Nat), tree.link = link ∧
    arena.Stores parent tree ∧ tree.Between order low high ∧ tree.Balanced c n ∧
      census = { blackHeight := n + 1, size := tree.size }

namespace Arena

variable {arena : Arena K V} {order : Order K} {parent : Link} {low high : Option K}
  {census : Engine.Census} {id : SlotId} {node : Node K V}

theorem passes_none_iff :
    arena.Passes order none parent low high census ↔ census = { blackHeight := 1, size := 0 } := by
  constructor
  · rintro ⟨tree, c, n, hlink, -, -, hbalanced, rfl⟩
    cases tree with
    | nil =>
      cases hbalanced
      rfl
    | node => cases hlink
  · rintro rfl
    exact ⟨.nil, .black, 0, rfl, trivial, Tree.between_nil, .nil, rfl⟩

/-- The check of a node, from the checks of what hangs from it. -/
theorem passes_some_iff
    (htrans : ∀ a b c, order a b = .lt → order b c = .lt → order a c = .lt)
    (hnode : arena.node? id = some node) :
    arena.Passes order (some id) parent low high census ↔
      node.parent = parent ∧
      ((∀ bound ∈ low, order bound node.key = .lt) ∧ ∀ bound ∈ high, order node.key bound = .lt) ∧
      (node.color = .red → arena.Paints node.left .black ∧ arena.Paints node.right .black) ∧
      ∃ less greater, arena.Passes order node.left (some id) low (some node.key) less ∧
        arena.Passes order node.right (some id) (some node.key) high greater ∧
        less.blackHeight = greater.blackHeight ∧
        census = {
          blackHeight := less.blackHeight + if node.color = .black then 1 else 0
          size := less.size + greater.size + 1 } := by
  constructor
  · rintro ⟨tree, c, n, hlink, hstores, hbetween, hbalanced, rfl⟩
    cases tree with
    | nil => cases hlink
    | node color left cell right =>
      obtain ⟨hstored, hleft, hright⟩ := hstores
      cases hlink
      cases hnode.symm.trans hstored
      obtain ⟨hbounds, hl, hr⟩ := (Tree.between_node_iff htrans color).1 hbetween
      cases hbalanced with
      | red hlb hrb =>
        refine ⟨rfl, hbounds, fun _ => ⟨?_, ?_⟩, _, _, ⟨left, _, _, rfl, hleft, hl, hlb, rfl⟩,
          ⟨right, _, _, rfl, hright, hr, hrb, rfl⟩, rfl, rfl⟩
        · exact hleft.paints_iff.2 hlb.color_eq
        · exact hright.paints_iff.2 hrb.color_eq
      | black hlb hrb =>
        exact ⟨rfl, hbounds, nofun, _, _, ⟨left, _, _, rfl, hleft, hl, hlb, rfl⟩,
          ⟨right, _, _, rfl, hright, hr, hrb, rfl⟩, rfl, rfl⟩
  · rintro ⟨rfl, hbounds, hchildren, _, _, ⟨left, c, n, hllink, hleft, hl, hlb, rfl⟩,
      ⟨right, d, m, hrlink, hright, hr, hrb, rfl⟩, hheight, rfl⟩
    cases Nat.succ.inj hheight
    obtain ⟨key, value, color, parent, leftLink, rightLink⟩ := node
    cases hllink
    cases hrlink
    have hstores : arena.Stores parent (.node color left ⟨id, key, value⟩ right) :=
      ⟨hnode, hleft, hright⟩
    have hbetween : Tree.Between order low high (.node color left ⟨id, key, value⟩ right) :=
      (Tree.between_node_iff htrans color).2 ⟨hbounds, hl, hr⟩
    cases color with
    | red =>
      obtain ⟨hlc, hrc⟩ := hchildren rfl
      cases hlb.color_eq.symm.trans (hleft.paints_iff.1 hlc)
      cases hrb.color_eq.symm.trans (hright.paints_iff.1 hrc)
      exact ⟨_, _, _, rfl, hstores, hbetween, .red hlb hrb, rfl⟩
    | black => exact ⟨_, _, _, rfl, hstores, hbetween, .black hlb hrb, rfl⟩

end Arena

namespace Engine.Decides

variable {linked : LinkedTree K V} {order : Order K} {comparator : Comparator σ K}

/-- The census of a subtree. The slots above it bound the levels that it can have, since each
owner has already been found to be named by its child. -/
theorem censusWithin (htrans : ∀ a b c, order a b = .lt → order b c = .lt → order a c = .lt)
    (hfollows : comparator.Follows order) {levels : Nat} {link parent : Link} {low high : Option K}
    (owners : List SlotId) (howners : linked.arena.Ancestry parent owners)
    (hlevels : linked.arena.slots.size < levels + owners.length) :
    Decides (Engine.censusWithin comparator levels link parent low high) linked
      (linked.arena.Passes order link parent low high) := by
  induction levels generalizing link parent low high owners with
  | zero =>
    -- all slots lie above the link already
    have hlength := howners.length_le
    omega
  | succ levels ih =>
    cases link with
    | none => exact congr (pure _) fun _ => Arena.passes_none_iff
    | some id =>
      rw [Engine.censusWithin]
      refine congr (bind (node id) fun node hnode => bind (require _ _) fun _ hparent =>
        bind (requireBetween hfollows low high node.key) fun _ _ =>
        bind (requireBlackChildren node) fun _ _ => bind (ih (id :: owners) ?_ ?_)
        fun less _ => bind (ih (id :: owners) ?_ ?_) fun greater _ =>
        bind (require _ _) fun _ _ => pure _) fun census => ?_
      · exact ⟨rfl, node, hnode, eq_of_beq hparent ▸ howners⟩
      · rw [List.length_cons]
        omega
      · exact ⟨rfl, node, hnode, eq_of_beq hparent ▸ howners⟩
      · rw [List.length_cons]
        omega
      · constructor
        · intro h
          have ⟨tree, _, _, hlink, hstores, _⟩ := h
          obtain ⟨node, hnode⟩ := hstores.exists_node hlink
          obtain ⟨hparent, hbounds, hchildren, less, greater, hless, hgreater, hheight, hcensus⟩ :=
            (Arena.passes_some_iff htrans hnode).1 h
          exact ⟨node, hnode, (), beq_iff_eq.2 hparent, (), hbounds, (), hchildren, less, hless,
            greater, hgreater, (), beq_iff_eq.2 hheight, hcensus⟩
        · rintro ⟨node, hnode, -, hparent, -, hbounds, -, hchildren, less, hless, greater, hgreater,
            -, hheight, hcensus⟩
          exact (Arena.passes_some_iff htrans hnode).2 ⟨beq_iff_eq.1 hparent, hbounds, hchildren,
            less, greater, hless, hgreater, beq_iff_eq.1 hheight, hcensus⟩

end Engine.Decides

/-! ## Valid trees -/

/-- A linked tree is a red-black tree whose keys ascend along an order. Every path to an empty
place crosses `height` black nodes, if the missing link at its end counts as one. -/
structure LinkedTree.Valid (linked : LinkedTree K V) (order : Order K) (height : Nat)
    (tree : Tree (Cell K V)) : Prop where
  /-- The links from the root form the tree, in which no slot occurs twice. Every parent link
  names the owner of the node, and that of the root is missing. -/
  depicts : linked.Depicts tree
  /-- The root is black, if there is one. -/
  root : tree.color = .black
  /-- No red node has a red child. -/
  red : ∀ left cell right path, (Tree.node .red left cell right).under path = tree →
    left.color = .black ∧ right.color = .black
  /-- All paths to empty places cross the same number of black nodes. -/
  black : ∀ path : Path (Cell K V), Tree.nil.under path = tree →
    path.countP (·.color = .black) + 1 = height
  /-- Every key is less than those after it. -/
  ascending : tree.toList.Pairwise fun first second => order first.key second.key = .lt
  /-- The entries are counted. -/
  size : tree.size = linked.size
  /-- The arena counts as many live nodes. -/
  live : tree.size = linked.arena.live

/-- Ascending keys lie in different slots. -/
theorem Arena.Stores.nodup_slots {arena : Arena K V} {order : Order K} {parent : Link}
    {tree : Tree (Cell K V)} (h : arena.Stores parent tree) (hself : ∀ a, order a a ≠ .lt)
    (hascending : tree.toList.Pairwise fun first second => order first.key second.key = .lt) :
    tree.slots.Nodup := by
  refine List.pairwise_map.2 (hascending.imp_of_mem fun {first second} hfirst hsecond hlt => ?_)
  intro hslot
  obtain ⟨node, hnode, hentry⟩ := h.exists_entry_eq hfirst
  obtain ⟨node', hnode', hentry'⟩ := h.exists_entry_eq hsecond
  rw [hslot] at hnode
  cases hnode.symm.trans hnode'
  -- one node has one key, which is not less than itself
  have hkey : first.key = second.key := congrArg Prod.fst (hentry.symm.trans hentry')
  rw [hkey] at hlt
  exact hself _ hlt

namespace Engine

variable {order : Order K} {comparator : Comparator σ K}

/-- The check of a linked tree in any state. -/
theorem Decides.validate (hself : ∀ a, order a a ≠ .lt)
    (htrans : ∀ a b c, order a b = .lt → order b c = .lt → order a c = .lt)
    (hfollows : comparator.Follows order) (linked : LinkedTree K V) :
    Decides (Engine.validate comparator) linked fun height =>
      ∃ tree, linked.Valid order height tree := by
  refine congr (bind (onTree rfl) fun root hroot => bind (isRed root) fun _ _ =>
    bind (require _ _) fun _ _ => bind (onTree rfl) fun levels hlevels =>
    bind (censusWithin htrans hfollows [] rfl ?_) fun census _ =>
    bind (onTree rfl) fun _ _ => bind (require _ _) fun _ _ => bind (require _ _) fun _ _ =>
    pure _) fun height => ?_
  · rw [hlevels]
    exact Nat.lt_succ_self _
  constructor
  · rintro ⟨tree, h⟩
    obtain ⟨hlink, hstores⟩ := h.depicts.shows
    -- all paths cross as many black nodes as one of them
    have hbalanced := Tree.balanced_of_countP_black h.red fun path hpath =>
      Nat.eq_sub_of_add_eq (h.black path hpath)
    have hheight : height - 1 + 1 = height := by
      have hspine := h.black (tree.spine .left []) (Tree.nil_under_spine ..)
      omega
    refine ⟨_, rfl, _, ⟨.black, hlink ▸ hstores.paints_iff.2 h.root, rfl⟩, (), rfl, _, rfl, _,
      ⟨tree, _, _, hlink.symm, hstores, ⟨nofun, nofun, h.ascending⟩, hbalanced, rfl⟩, _, rfl, (),
      beq_iff_eq.2 h.size, (), beq_iff_eq.2 (h.live.symm.trans h.size), hheight.symm⟩
  · rintro ⟨_, rfl, _, ⟨color, hcolor, rfl⟩, -, hblack, _, rfl, _,
      ⟨tree, c, n, hlink, hstores, hbetween, hbalanced, rfl⟩, _, rfl, -, hsize, -, hlive, rfl⟩
    rw [← hlink, hstores.paints_iff] at hcolor
    have hroot : tree.color = .black := by
      rw [hcolor]
      cases color with
      | red => cases hblack
      | black => rfl
    cases hbalanced.color_eq.symm.trans hroot
    have hcount : tree.size = linked.size := beq_iff_eq.1 hsize
    refine ⟨tree, ⟨⟨hlink.symm, hstores⟩, hstores.nodup_slots hself hbetween.ascending⟩, hroot,
      fun _ _ _ _ => hbalanced.color_children, fun path hpath => ?_, hbetween.ascending, hcount,
      hcount.trans (beq_iff_eq.1 hlive).symm⟩
    rw [hbalanced.countP_black hpath]

/-- Whatever lies in the slots, the check comes to an end, and it gives a black height exactly
if the links from the root form a red-black tree of this black height, which has as many nodes as
are counted. -/
theorem validate_eq_ok_iff (hswap : ∀ a b, order b a = (order a b).swap)
    (htrans : ∀ a b c, order a b = .lt → order b c = .lt → order a c = .lt)
    (hfollows : comparator.Follows order) (context : Context σ K V) (height : Nat) :
    (∀ after, validate comparator context ≠ .error .endless after) ∧
      ((∃ after, validate comparator context = .ok height after) ↔
        ∃ tree, context.tree.Valid order height tree) := by
  have hself : ∀ a, order a a ≠ .lt := by
    intro a hlt
    have h := hswap a a
    rw [hlt] at h
    cases h
  rcases Decides.validate hself htrans hfollows context.tree context rfl with
    ⟨answer, between, hok, -, hspec⟩ | ⟨fault, between, herror, hfault, hspec⟩
  · rw [hok]
    refine ⟨nofun, Iff.trans ?_ (hspec height).symm⟩
    constructor
    · rintro ⟨after, h⟩
      cases h
      rfl
    · rintro rfl
      exact ⟨between, rfl⟩
  · rw [herror]
    refine ⟨fun after h => ?_, iff_of_false nofun (hspec height)⟩
    cases h
    exact hfault rfl

/-- A linked tree with a single node, whose left link can lead anywhere. -/
def loner (left : Link) : LinkedTree Nat Unit :=
  let node : Node Nat Unit :=
    { key := 1, value := (), color := .black, parent := none, left, right := none }
  let arena : Arena Nat Unit :=
    { slots := #[.occupied node], lastVacated := none, live := 1, capacity := 4, room := ⟨8, 24⟩ }
  { arena, root := some 0, size := 1 }

/-- A linked tree with a black root and two red nodes that belong below it, if the links of the root
lead there. -/
def family (left right : Link) : LinkedTree Nat Unit :=
  let root : Node Nat Unit :=
    { key := 2, value := (), color := .black, parent := none, left, right }
  let arena : Arena Nat Unit :=
    { slots := #[.occupied root, .occupied (Node.leaf 1 () (some 0)),
        .occupied (Node.leaf 3 () (some 0))]
      lastVacated := none, live := 3, capacity := 4, room := ⟨8, 24⟩ }
  { arena, root := some 0, size := 3 }

/-- The check accepts a single node without children, and refuses one that is its own child. It
accepts a root with two children, and refuses it if both of its links lead to the same child, if one
of them leads to no slot, and if the children are the wrong way round. -/
theorem validate_family :
    (∃ tree, (loner none).Valid compare 2 tree) ∧
      (∀ height tree, ¬ (loner (some 0)).Valid compare height tree) ∧
      (∃ tree, (family (some 1) (some 2)).Valid compare 2 tree) ∧
      (∀ height tree, ¬ (family (some 1) (some 1)).Valid compare height tree) ∧
      (∀ height tree, ¬ (family (some 1) (some 7)).Valid compare height tree) ∧
      ∀ height tree, ¬ (family (some 2) (some 1)).Valid compare height tree := by
  have hswap : ∀ a b : Nat, compare b a = (compare a b).swap := fun a b =>
    (Nat.compare_swap a b).symm
  have htrans : ∀ a b c : Nat, compare a b = .lt → compare b c = .lt → compare a c = .lt := by
    intro a b c hab hbc
    rw [Nat.compare_eq_lt] at hab hbc ⊢
    exact hab.trans hbc
  have hfollows : (Comparator.ofOrder compare : Comparator Unit Nat).Follows compare :=
    Comparator.follows_ofOrder compare
  have hiff := fun linked : LinkedTree Nat Unit =>
    validate_eq_ok_iff hswap htrans hfollows ⟨linked, (), #[], #[]⟩
  refine ⟨(hiff (loner none) 2).2.1 ⟨_, rfl⟩, ?_, (hiff (family (some 1) (some 2)) 2).2.1 ⟨_, rfl⟩,
    ?_, ?_, ?_⟩
  -- where the check ends with a fault, no tree is valid
  all_goals
    intro height tree hvalid
    obtain ⟨after, hok⟩ := (hiff _ height).2.2 ⟨tree, hvalid⟩
    cases hok

end Engine

end RedBlack
