import RedBlack.Proofs.Linked.Layout
import RedBlack.Proofs.Tree.Rebalancing

/-!
# Rotations and Their Events

A repair of a linked tree recolours nodes and rotates, and nothing else; `Rebalances n` counts
the rotations. A rule `Turns spent action total` says that an action only does that, and that
its answer accounts for the rotations made: those made before are `spent`, and the answer tells
how many there are now. With one rule for every way to put actions together, the rotations made
are those that the events of a repair report (`turns_repairRed`, `turns_repairShort`).

Storing an entry hangs a leaf into an empty place before the repair (`InsertsBy`), and erasing
one takes a node out before the repair and vacates its slot afterwards (`ErasesBy`); neither of
these steps rotates.
-/

namespace RedBlack

namespace LinkedTree

variable {K V α β : Type} {before mid after : LinkedTree K V} {n m spent : Nat}

/-! ## Recolouring and rotating -/

/-- `after` arises from `before` by recolouring nodes and by `n` rotations. -/
inductive Rebalances : Nat → LinkedTree K V → LinkedTree K V → Prop
  /-- Nothing is done. -/
  | refl (linked : LinkedTree K V) : Rebalances 0 linked linked
  /-- A node is recoloured. -/
  | paint {n : Nat} {before mid after : LinkedTree K V} {id : SlotId} {color : Color} :
      LinkedTree.paint id color before = .ok () mid → Rebalances n mid after →
        Rebalances n before after
  /-- A node is rotated down towards one side. -/
  | rotate {n : Nat} {before mid after : LinkedTree K V} {id : SlotId} {side : Side} :
      LinkedTree.rotate id side before = .ok () mid → Rebalances n mid after →
        Rebalances (n + 1) before after

/-- Rotations add up. -/
theorem Rebalances.trans (h : Rebalances n before mid) (h' : Rebalances m mid after) :
    Rebalances (n + m) before after := by
  induction h with
  | refl => rwa [Nat.zero_add]
  | paint hpaint _ ih => exact .paint hpaint (ih h')
  | rotate hrotate _ ih =>
    rw [Nat.add_right_comm]
    exact .rotate hrotate (ih h')

/-- If the action succeeds, it has only recoloured nodes and rotated, and its answer says how many
rotations were made, together with the `spent` ones before. -/
def Turns (spent : Nat) (action : LinkM K V α) (total : α → Nat) : Prop :=
  ∀ ⦃before : LinkedTree K V⦄ ⦃answer : α⦄ ⦃after : LinkedTree K V⦄,
    action before = .ok answer after →
      ∃ n, Rebalances n before after ∧ spent + n = total answer

/-- What two actions, one after the other, have done if they succeed. -/
theorem of_bind_eq_ok {action : LinkM K V α} {next : α → LinkM K V β} {b : β}
    (h : (action >>= next) before = .ok b after) :
    ∃ a mid, action before = .ok a mid ∧ next a mid = .ok b after := by
  cases haction : action before with
  | ok a mid =>
    rw [bind_of_ok haction] at h
    exact ⟨a, mid, rfl, h⟩
  | error fault mid =>
    simp only [Bind.bind, EStateM.bind, haction] at h
    cases h

namespace Turns

variable {action : LinkM K V α} {total : α → Nat}

theorem pure {answer : α} (h : spent = total answer) :
    Turns spent (Pure.pure answer : LinkM K V α) total := by
  intro before _ _ heq
  cases heq
  exact ⟨0, .refl before, h⟩

/-- A fault is no success. -/
theorem throw (fault : Fault) : Turns spent (MonadExcept.throw fault : LinkM K V α) total :=
  nofun

/-- Actions are accounted for one after the other. -/
theorem bind {next : α → LinkM K V β} {middle : α → Nat} {total : β → Nat}
    (h : Turns spent action middle) (hnext : ∀ a, Turns (middle a) (next a) total) :
    Turns spent (action >>= next) total := by
  intro before b after heq
  obtain ⟨a, mid, haction, hrest⟩ := of_bind_eq_ok heq
  obtain ⟨n, hn, hmiddle⟩ := h haction
  obtain ⟨m, hm, htotal⟩ := hnext a hrest
  exact ⟨n + m, hn.trans hm, by omega⟩

/-- What was spent before may be added on both sides. -/
theorem add (h : Turns 0 action total) : Turns spent action fun a => spent + total a := by
  intro before a after heq
  obtain ⟨n, hn, htotal⟩ := h heq
  exact ⟨n, hn, congrArg (spent + ·) ((Nat.zero_add n).symm.trans htotal)⟩

/-- A question is answered without a rotation. -/
theorem inspect (question : LinkedTree K V → Except Fault α) :
    Turns spent (LinkedTree.inspect question) fun _ => spent := by
  intro before a after heq
  rw [LinkedTree.inspect] at heq
  split at heq
  · cases heq
    exact ⟨0, .refl before, rfl⟩
  · cases heq

theorem node (id : SlotId) : Turns spent (LinkedTree.node id : LinkM K V _) fun _ => spent :=
  inspect _

theorem resolve (link : Link) :
    Turns spent (LinkedTree.resolve link : LinkM K V _) fun _ => spent :=
  inspect _

theorem getRoot : Turns spent (LinkedTree.getRoot : LinkM K V _) fun _ => spent := by
  intro before a after heq
  cases heq
  exact ⟨0, .refl before, rfl⟩

theorem budget : Turns spent (LinkedTree.budget : LinkM K V _) fun _ => spent := by
  intro before a after heq
  cases heq
  exact ⟨0, .refl before, rfl⟩

theorem isRed (link : Link) : Turns spent (LinkedTree.isRed link : LinkM K V _) fun _ => spent := by
  cases link with
  | none => exact pure rfl
  | some id => exact (node id).bind fun _ => pure rfl

theorem ifRed (link : Link) : Turns spent (LinkedTree.ifRed link : LinkM K V _) fun _ => spent :=
  (isRed link).bind fun _ => pure rfl

theorem childSide (link : Link) (parent : SlotId) :
    Turns spent (LinkedTree.childSide link parent : LinkM K V _) fun _ => spent :=
  (node parent).bind fun _ => pure rfl

theorem sibling (parent : SlotId) (side : Side) :
    Turns spent (LinkedTree.sibling parent side : LinkM K V _) fun _ => spent := by
  refine (node parent).bind fun stored => ?_
  cases stored.child side with
  | none => exact throw _
  | some id => exact pure rfl

/-- Recolouring is no rotation. -/
theorem paint (id : SlotId) (color : Color) :
    Turns spent (LinkedTree.paint id color : LinkM K V _) fun _ => spent :=
  fun _ _ after heq => ⟨0, .paint heq (.refl after), rfl⟩

/-- A rotation counts as one. -/
theorem rotate (id : SlotId) (side : Side) :
    Turns spent (LinkedTree.rotate id side : LinkM K V _) fun _ => spent + 1 :=
  fun _ _ after heq => ⟨1, .rotate heq (.refl after), rfl⟩

end Turns

/-! ## Repairs -/

open Event (rotations)

theorem turns_recolor (parent uncle grand : SlotId) :
    Turns spent (recolor parent uncle grand : LinkM K V _) fun _ => spent :=
  (Turns.paint parent .black).bind fun _ =>
    (Turns.paint uncle .black).bind fun _ => .paint grand .red

theorem turns_straighten (z parent : SlotId) (side : Side) :
    Turns 0 (straighten z parent side : LinkM K V _) fun answer => rotations answer.2 := by
  refine (Turns.node parent).bind fun stored => ?_
  split
  · exact (Turns.rotate parent side).bind fun _ => .pure rfl
  · exact .pure rfl

theorem turns_rotateGrandparent (z : SlotId) (side : Side) :
    Turns spent (rotateGrandparent z side : LinkM K V _) fun _ => spent + 1 := by
  refine (Turns.node z).bind fun _ => (Turns.resolve _).bind fun parent => ?_
  refine (Turns.node parent).bind fun _ => (Turns.resolve _).bind fun grand => ?_
  exact (Turns.paint parent .black).bind fun _ =>
    (Turns.paint grand .red).bind fun _ => .rotate grand side.opposite

/-- Moving a red node up makes the rotations that it reports. -/
theorem turns_repairRedWithin (steps : Nat) (z : SlotId) :
    Turns 0 (repairRedWithin steps z : LinkM K V _) rotations := by
  induction steps generalizing z with
  | zero => exact .throw _
  | succ steps ih =>
    refine (Turns.node z).bind fun stored => (Turns.ifRed stored.parent).bind fun link => ?_
    cases link with
    | none => exact .pure rfl
    | some parent =>
      refine (Turns.node parent).bind fun _ => (Turns.resolve _).bind fun grand => ?_
      refine (Turns.childSide _ grand).bind fun side => ?_
      refine (Turns.node grand).bind fun _ => (Turns.ifRed _).bind fun uncle => ?_
      cases uncle with
      -- a red uncle takes the recolouring, and the loop goes on at the grandparent
      | some uncle =>
        refine (turns_recolor parent uncle grand).bind fun _ => (ih grand).bind fun events => ?_
        exact .pure rfl
      -- the loop does not know that the rotation was the last one and looks once more
      | none =>
        refine (turns_straighten z parent side).bind fun (z, first) => ?_
        refine (turns_rotateGrandparent z side).bind fun _ => (ih z).add.bind fun events => ?_
        refine .pure ?_
        simp only [Event.rotations_append, Event.rotations_cons, Event.isRotation, if_pos]
        omega

/-- The repair around a red node makes the rotations that it reports. -/
theorem turns_repairRed (z : SlotId) : Turns 0 (repairRed z : LinkM K V _) rotations := by
  refine Turns.budget.bind fun steps => (turns_repairRedWithin steps z).bind fun events => ?_
  refine Turns.bind ?_ fun _ => .pure rfl
  exact Turns.getRoot.bind fun _ => (Turns.resolve _).bind fun root => .paint root .black

theorem turns_rotateRedSibling (parent : SlotId) (side : Side) :
    Turns 0 (rotateRedSibling parent side : LinkM K V _) fun answer => rotations answer.2 := by
  refine (Turns.sibling parent _).bind fun red => (Turns.isRed _).bind fun isRed => ?_
  split
  · refine (Turns.paint red .black).bind fun _ => (Turns.paint parent .red).bind fun _ => ?_
    refine (Turns.rotate parent side).bind fun _ => (Turns.sibling parent _).bind fun _ => ?_
    exact .pure rfl
  · exact .pure rfl

theorem turns_rotateNearNephew (parent sibling near : SlotId) (side : Side) :
    Turns spent (rotateNearNephew parent sibling near side : LinkM K V _)
      fun answer => spent + rotations answer.2 := by
  refine (Turns.paint near .black).bind fun _ => (Turns.paint sibling .red).bind fun _ => ?_
  refine (Turns.rotate sibling _).bind fun _ => (Turns.sibling parent _).bind fun _ => ?_
  exact .pure rfl

theorem turns_rotateFarNephew (parent sibling : SlotId) (side : Side) :
    Turns spent (rotateFarNephew parent sibling side : LinkM K V _) fun _ => spent + 1 := by
  refine (Turns.node parent).bind fun _ => (Turns.paint sibling _).bind fun _ => ?_
  refine (Turns.paint parent .black).bind fun _ => (Turns.node sibling).bind fun _ => ?_
  refine (Turns.resolve _).bind fun far => (Turns.paint far .black).bind fun _ => ?_
  exact .rotate parent side

/-- Moving a shortage up makes the rotations that it reports. -/
theorem turns_repairShortWithin (steps : Nat) (place parent : Link) :
    Turns 0 (repairShortWithin steps place parent : LinkM K V _)
      fun answer => rotations answer.2 := by
  induction steps generalizing place parent with
  | zero => exact .throw _
  | succ steps ih =>
    refine Turns.getRoot.bind fun root => ?_
    split
    · exact .pure rfl
    · refine (Turns.isRed place).bind fun red => ?_
      split
      · exact .pure rfl
      · refine (Turns.resolve parent).bind fun parent => ?_
        refine (Turns.childSide place parent).bind fun side => ?_
        refine (turns_rotateRedSibling parent side).bind fun (sibling, first) => ?_
        refine (Turns.node sibling).bind fun nephews => ?_
        refine (Turns.ifRed _).bind fun near => (Turns.ifRed _).bind fun far => ?_
        -- black nephews leave the shortage to the parent, a red one ends it by rotating
        rcases near with _ | near <;> rcases far with _ | far
        · refine (Turns.paint sibling .red).bind fun _ => (Turns.node parent).bind fun _ => ?_
          refine (ih _ _).add.bind fun (place, events) => .pure ?_
          simp [Event.isRotation]
        · refine (turns_rotateFarNephew parent sibling side).bind fun _ => ?_
          refine Turns.getRoot.bind fun _ => .pure ?_
          simp [Event.isRotation]
        · refine (turns_rotateNearNephew parent sibling near side).bind fun (sibling, second) => ?_
          refine (turns_rotateFarNephew parent sibling side).bind fun _ => ?_
          refine Turns.getRoot.bind fun _ => .pure ?_
          simp only [Event.rotations_append, Event.rotations_cons, Event.rotations_nil,
            Event.isRotation, if_pos]
        · refine (turns_rotateFarNephew parent sibling side).bind fun _ => ?_
          refine Turns.getRoot.bind fun _ => .pure ?_
          simp [Event.isRotation]

/-- The repair of a shortage makes the rotations that it reports. -/
theorem turns_repairShort (place parent : Link) :
    Turns 0 (repairShort place parent : LinkM K V _) rotations := by
  refine Turns.budget.bind fun steps => ?_
  refine (turns_repairShortWithin steps place parent).bind fun (place, events) => ?_
  cases place with
  | none => exact .pure rfl
  | some id => exact (Turns.paint id .black).bind fun _ => .pure rfl

/-! ## Storing and erasing -/

/-- `after` arises from `before` by storing a new leaf in an empty place, recolouring nodes, and
`n` rotations. -/
def InsertsBy (n : Nat) (before after : LinkedTree K V) : Prop :=
  ∃ parent side key value id stored hung counted,
    onArena (Arena.alloc key value parent) before = .ok (.ok id) stored ∧
      hang parent side (some id) stored = .ok () hung ∧
      countUp hung = .ok () counted ∧
      Rebalances n counted after

/-- `after` arises from `before` by taking a node out of its place, recolouring nodes, `n`
rotations, and vacating the slot of the node. -/
def ErasesBy (n : Nat) (before after : LinkedTree K V) : Prop :=
  ∃ z entry vacancy unlinked repaired counted,
    unlink z before = .ok vacancy unlinked ∧
      Rebalances n unlinked repaired ∧
      countDown repaired = .ok () counted ∧
      onArena (Arena.free z) counted = .ok entry after

/-- Storing an entry rotates as often as its events say. -/
theorem insertsBy_of_insertAt {parent : Link} {side : Side} {key : K} {value : V}
    {events : List Event}
    (h : insertAt parent side key value before = .ok (.ok (), events) after) :
    InsertsBy (rotations events) before after := by
  obtain ⟨id, stored, halloc, h⟩ := of_bind_eq_ok h
  cases id with
  | error cause => cases h
  | ok id =>
    obtain ⟨_, hung, hhang, h⟩ := of_bind_eq_ok h
    obtain ⟨_, counted, hcount, h⟩ := of_bind_eq_ok h
    obtain ⟨reported, repaired, hrepair, h⟩ := of_bind_eq_ok h
    cases h
    obtain ⟨n, hn, htotal⟩ := turns_repairRed id hrepair
    rw [Nat.zero_add] at htotal
    exact ⟨parent, side, key, value, id, stored, hung, counted, halloc, hhang, hcount, htotal ▸ hn⟩

/-- Erasing an entry rotates as often as its events say. -/
theorem erasesBy_of_erase {z : SlotId} {entry : K × V} {events : List Event}
    (h : erase z before = .ok (entry, events) after) :
    ErasesBy (rotations events) before after := by
  rw [erase_eq] at h
  obtain ⟨reported, repaired, hextract, h⟩ := of_bind_eq_ok h
  obtain ⟨_, counted, hcount, h⟩ := of_bind_eq_ok h
  obtain ⟨freed, vacated, hfree, h⟩ := of_bind_eq_ok h
  cases h
  obtain ⟨vacancy, unlinked, hunlink, hrepair⟩ := of_bind_eq_ok hextract
  -- a red node leaves nothing to repair
  have hturns : Turns 0 (if vacancy.color = .black then repairShort vacancy.child vacancy.parent
      else pure [] : LinkM K V _) rotations := by
    split
    · exact turns_repairShort vacancy.child vacancy.parent
    · exact .pure rfl
  obtain ⟨n, hn, htotal⟩ := hturns hrepair
  rw [Nat.zero_add] at htotal
  exact ⟨z, entry, vacancy, unlinked, repaired, counted, hunlink, htotal ▸ hn, hcount, hfree⟩

end LinkedTree

end RedBlack
