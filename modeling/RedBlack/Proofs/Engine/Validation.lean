import RedBlack.Engine.Validation
import RedBlack.Proofs.Engine.Reachable

/-!
# Validating Reachable Trees

What `Engine.validate` does on a tree that is laid out in order. All rules but the order of the
keys hold of such a tree, so the check either gives the black height, with one more for the
missing link at the end of every path, or finds two keys out of order (`Checks.validate`). The
latter takes a comparator that does not call every key less than every other.
-/

namespace RedBlack

variable {σ K V α β : Type}

/-- The comparator has an answer other than `lt`. -/
def Comparator.Denies (comparator : Comparator σ K) : Prop :=
  ∃ a b memory, (comparator a b memory).1 ≠ .lt

namespace Engine

/-- Around a linked tree, which it leaves as it is, the action gives `answer`, unless the
comparator denies that some key is less than another. -/
def Checks (comparator : Comparator σ K) (action : EngineM σ K V α) (linked : LinkedTree K V)
    (answer : α) : Prop :=
  ∀ context : Context σ K V, context.tree = linked →
    ∃ after : Context σ K V, after.tree = linked ∧
      (action context = .ok answer after ∨
        comparator.Denies ∧ action context = .error (.violation .keyOutOfOrder) after)

/-- After an action that ends in a fault, nothing is done. -/
theorem bind_of_error {action : EngineM σ K V α} {next : α → EngineM σ K V β} {fault : Fault}
    {context after : Context σ K V} (h : action context = .error fault after) :
    (action >>= next) context = .error fault after := by
  simp only [bind, EStateM.bind, h]

namespace Checks

variable {comparator : Comparator σ K} {linked : LinkedTree K V}

theorem pure (answer : α) :
    Checks comparator (Pure.pure answer : EngineM σ K V α) linked answer :=
  fun context h => ⟨context, h, .inl rfl⟩

/-- Checks are made one after the other. -/
theorem bind {action : EngineM σ K V α} {next : α → EngineM σ K V β} {a : α} {b : β}
    (h : Checks comparator action linked a) (hnext : Checks comparator (next a) linked b) :
    Checks comparator (action >>= next) linked b := by
  intro context hcontext
  obtain ⟨between, hbetween, hok | ⟨hdenies, hstop⟩⟩ := h context hcontext
  · obtain ⟨after, hafter, hrest⟩ := hnext between hbetween
    exact ⟨after, hafter, (bind_of_ok hok).symm ▸ hrest⟩
  · exact ⟨between, hbetween, .inr ⟨hdenies, bind_of_error hstop⟩⟩

/-- Reading the tree. -/
theorem onTree {action : LinkM K V α} {answer : α} (h : action linked = .ok answer linked) :
    Checks comparator (Engine.onTree action) linked answer := by
  rintro context rfl
  refine ⟨context, rfl, .inl ?_⟩
  simp only [Engine.onTree, h]

/-- A rule that holds. -/
theorem require {holds : Bool} (h : holds = true) (rule : Violation) :
    Checks (V := V) comparator (Engine.require holds rule) linked () := by
  rw [Engine.require, if_pos h]
  exact pure ()

/-- Only the answer `lt` lets the check go on. -/
theorem requireBefore (a b : K) :
    Checks (V := V) comparator (Engine.requireBefore comparator a b) linked () := by
  rintro ⟨tree, memory, trace, released⟩ rfl
  rcases hask : comparator a b memory with ⟨answer, memory'⟩
  have hok : Engine.ask comparator a b ⟨tree, memory, trace, released⟩ =
      .ok answer ⟨tree, memory', trace, released⟩ := by
    simp only [Engine.ask, hask]
  refine ⟨⟨tree, memory', trace, released⟩, rfl, ?_⟩
  rw [Engine.requireBefore, bind_of_ok hok]
  by_cases hlt : answer = .lt
  · subst hlt
    exact .inl rfl
  · refine .inr ⟨⟨a, b, memory, ?_⟩, ?_⟩
    · rw [hask]
      exact hlt
    · rw [Engine.require, if_neg (by simpa using hlt)]
      rfl

theorem requireBetween (low high : Option K) (key : K) :
    Checks (V := V) comparator (Engine.requireBetween comparator low high key) linked () := by
  cases low with
  | none =>
    cases high with
    | none => exact pure ()
    | some high => exact requireBefore key high
  | some low =>
    refine bind (requireBefore low key) ?_
    cases high with
    | none => exact pure ()
    | some high => exact requireBefore key high

/-- The colour that a link leads to is that of the tree stored there. -/
theorem isRed {tree : Tree (Cell K V)} {parent : Link}
    (hstores : linked.arena.Stores parent tree) :
    Checks comparator (Engine.onTree (LinkedTree.isRed tree.link)) linked (tree.color == .red) := by
  apply onTree
  cases tree with
  | nil => rfl
  | node color left cell right => exact LinkedTree.bind_of_ok (LinkedTree.node_of_node? hstores.1)

/-- Under a black parent link, nothing red may hang from a red node. -/
theorem requireBlackChildren (comparator : Comparator σ K) {color : Color}
    {left right : Tree (Cell K V)} {cell : Cell K V} {parent : Link} {c : Color} {n : Nat}
    (hstores : linked.arena.Stores parent (.node color left cell right))
    (hbalanced : Tree.Balanced (.node color left cell right) c n) :
    Checks comparator
      (Engine.requireBlackChildren (Tree.Frame.node ⟨.left, color, cell, right⟩ left.link parent))
      linked () := by
  obtain ⟨-, hleft, hright⟩ := hstores
  cases hbalanced with
  | red hl hr =>
    refine bind (isRed hleft) (bind (require ?_ _) (bind (isRed hright) (require ?_ _)))
    · rw [hl.color_eq]
      rfl
    · rw [hr.color_eq]
      rfl
  | black _ _ => exact pure ()

/-- In a balanced tree that is stored in order, the check counts the black nodes on a path and
all nodes. -/
theorem censusWithin {tree : Tree (Cell K V)} {parent : Link} {c : Color} {n levels : Nat}
    (hstores : linked.arena.Stores parent tree) (hbalanced : tree.Balanced c n)
    (hlevels : tree.size ≤ levels) (low high : Option K) :
    Checks comparator (Engine.censusWithin comparator levels tree.link parent low high) linked
      { blackHeight := n + 1, size := tree.size } := by
  induction tree generalizing parent c n levels low high with
  | nil =>
    cases hbalanced
    cases levels <;> exact pure _
  | node color left cell right ihl ihr =>
    rw [Tree.size] at hlevels
    obtain ⟨levels, rfl⟩ : ∃ k, levels = k + 1 := Nat.exists_eq_succ_of_ne_zero (by omega)
    have hchildren := requireBlackChildren comparator hstores hbalanced
    obtain ⟨hnode, hleft, hright⟩ := hstores
    -- both subtrees cross the same number of black nodes, which the node may add to
    obtain ⟨c', d', k, hl, hr, hn⟩ : ∃ c' d' k, left.Balanced c' k ∧ right.Balanced d' k ∧
        n = k + if color = .black then 1 else 0 := by
      cases hbalanced with
      | red hl hr => exact ⟨_, _, _, hl, hr, rfl⟩
      | black hl hr => exact ⟨_, _, _, hl, hr, rfl⟩
    refine bind (onTree (LinkedTree.node_of_node? hnode)) ?_
    refine bind (require (beq_self_eq_true parent) _) ?_
    refine bind (requireBetween low high cell.key) (bind hchildren ?_)
    refine bind (ihl hleft hl (by omega) low (some cell.key)) ?_
    refine bind (ihr hright hr (by omega) (some cell.key) high) ?_
    refine bind (require (beq_self_eq_true (k + 1)) _) ?_
    have hheight : k + 1 + (if color = .black then 1 else 0) = n + 1 := by omega
    rw [Tree.size, ← hheight]
    exact pure _

/-- The check of a tree that is laid out in order gives its black height. -/
theorem validate (comparator : Comparator σ K) {layout : Layout K V} {n : Nat}
    (h : linked.LaidOut layout) (hbalanced : layout.tree.Balanced .black n) :
    Checks comparator (Engine.validate comparator) linked (n + 1) := by
  have hroot : LinkedTree.getRoot linked = .ok layout.tree.link linked :=
    congrArg (EStateM.Result.ok · linked) h.shows.1
  have hlive := h.storage.live
  rw [Tree.length_slots] at hlive
  refine bind (onTree hroot) (bind (isRed h.shows.2) (bind (require ?_ _) ?_))
  · rw [hbalanced.color_eq]
    rfl
  refine bind (onTree rfl) ?_
  refine bind (censusWithin h.shows.2 hbalanced (Nat.le_of_lt h.size_lt_budget) none none) ?_
  -- both counts are the number of nodes
  refine bind (onTree rfl) (bind (require ?_ _) (bind (require ?_ _) (pure _)))
  · rw [h.size]
    exact beq_self_eq_true _
  · rw [hlive, h.size]
    exact beq_self_eq_true _

end Checks

end Engine

end RedBlack
