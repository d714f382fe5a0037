import RedBlack.Proofs.Engine.Operation

/-!
# Effects on the Cells in Order

What operations may do to the list of the cells from left to right, whatever a comparator
answers. Nothing can be said about where a key belongs then, but where its descent ends says it
all: a new cell comes into the empty place that was found (`Gap`), and what is changed or
removed is the cell that was found, the outermost one, or the one that the cursor yielded last.
All other cells keep their slots, keys and values.

`Operation.Effect` puts this together from `Operation.Reads` (operations that change no cell),
`Cursor.Effects` (uses of a cursor) and `Operation.Sifts` (filters). None of these effects
reorders cells (`Operation.Effect.sublist`).
-/

namespace RedBlack

open Engine (Landing)

variable {σ τ K V : Type}

/-! ## Cells in order -/

/-- The cells of a linked tree from left to right. -/
structure LinkedTree.Lists (linked : LinkedTree K V) (cells : List (Cell K V)) : Prop where
  /-- The links form a tree of these cells, in as many slots. -/
  depicts : ∃ tree, linked.Depicts tree ∧ tree.toList = cells
  /-- A traversal yields their entries. -/
  entries : linked.entries = .ok (cells.map Cell.entry)

/-- The empty place on one side of a node parts the cells into those before and after it. -/
inductive Gap : Link → Side → List (Cell K V) → List (Cell K V) → Prop
  /-- The root of an empty tree. -/
  | root (side : Side) : Gap none side [] []
  /-- An empty place on the left of a node is right before its cell. -/
  | left (front : List (Cell K V)) (cell : Cell K V) (back : List (Cell K V)) :
      Gap (some cell.slot) .left front (cell :: back)
  /-- An empty place on the right of a node is right after its cell. -/
  | right (front : List (Cell K V)) (cell : Cell K V) (back : List (Cell K V)) :
      Gap (some cell.slot) .right (front ++ [cell]) back

/-! ## Effects -/

/-- The effect of one use of a cursor: `last` is the slot of the cell that it yielded last,
unless that was removed. -/
inductive Cursor.Effect : Cursor.Move V → (last : Link) → List (Cell K V) →
    Cursor.Outcome K V → (last' : Link) → List (Cell K V) → Prop
  /-- Some cell is yielded. -/
  | next {last : Link} (front : List (Cell K V)) (cell : Cell K V) (back : List (Cell K V)) :
      Effect .next last (front ++ cell :: back)
        (.yielded (some cell.entry)) (some cell.slot) (front ++ cell :: back)
  /-- Some cell is yielded and gets another value. -/
  | replace {last : Link} (front : List (Cell K V)) (cell : Cell K V) (back : List (Cell K V))
      (value : V) :
      Effect (.replace value) last (front ++ cell :: back)
        (.yielded (some cell.entry)) (some cell.slot) (front ++ cell.withValue value :: back)
  /-- There is nothing more to yield. -/
  | nextFinished {last : Link} {cells : List (Cell K V)} :
      Effect .next last cells (.yielded none) last cells
  /-- There is nothing more to yield, so the value goes nowhere. -/
  | replaceFinished {last : Link} {cells : List (Cell K V)} (value : V) :
      Effect (.replace value) last cells (.yielded none) last cells
  /-- Whether there is more to yield. -/
  | hasNext {last : Link} {cells : List (Cell K V)} (answer : Bool) :
      Effect .hasNext last cells (.flag answer) last cells
  /-- The cell yielded last is removed. -/
  | remove (front : List (Cell K V)) (cell : Cell K V) (back : List (Cell K V)) :
      Effect .remove (some cell.slot) (front ++ cell :: back)
        (.removed (.ok cell.entry)) none (front ++ back)
  /-- There is nothing to remove. -/
  | refuse {cells : List (Cell K V)} :
      Effect .remove none cells (.removed (.error .invalidCursorState)) none cells

/-- The effects of uses of a cursor, one after the other. -/
inductive Cursor.Effects : List (Cursor.Move V) → (last : Link) → List (Cell K V) →
    List (Cursor.Outcome K V) → List (Cell K V) → Prop
  /-- The cursor is not used again. -/
  | nil {last : Link} {cells : List (Cell K V)} : Effects [] last cells [] cells
  /-- It is used once more. -/
  | cons {move : Cursor.Move V} {moves : List (Cursor.Move V)} {last last' : Link}
      {cells between cells' : List (Cell K V)} {outcome : Cursor.Outcome K V}
      {outcomes : List (Cursor.Outcome K V)} :
      Cursor.Effect move last cells outcome last' between →
        Effects moves last' between outcomes cells' →
          Effects (move :: moves) last cells (outcome :: outcomes) cells'

namespace Operation

/-- The effects of a filter on one cell after the other: each one that it visits gets the value
that `keep` leaves, and if `keep` answers `false`, it is removed and this value released. -/
inductive Sifts (keep : K → V → StateM τ (Bool × V)) :
    τ → List (Cell K V) → τ → List (Cell K V) → List V → Prop
  /-- No cell is visited any more. -/
  | done {state : τ} {cells : List (Cell K V)} : Sifts keep state cells state cells []
  /-- A cell stays. -/
  | keeps {state state' final : τ} {cells' : List (Cell K V)} {released : List V}
      (front : List (Cell K V)) (cell : Cell K V) (back : List (Cell K V)) {value : V} :
      keep cell.key cell.value state = ((true, value), state') →
        Sifts keep state' (front ++ cell.withValue value :: back) final cells' released →
          Sifts keep state (front ++ cell :: back) final cells' released
  /-- A cell is removed. -/
  | drops {state state' final : τ} {cells' : List (Cell K V)} {released : List V}
      (front : List (Cell K V)) (cell : Cell K V) (back : List (Cell K V)) {value : V} :
      keep cell.key cell.value state = ((false, value), state') →
        Sifts keep state' (front ++ back) final cells' released →
          Sifts keep state (front ++ cell :: back) final cells' (value :: released)

/-- The answers of the operations that leave all cells as they are; `land` says where the
descent for a key ends. -/
inductive Reads (land : K → Landing) (cells : List (Cell K V)) :
    Operation τ K V → Answer τ K V → Prop
  | get {key : K} {cell : Cell K V} : land key = .found cell.slot → cell ∈ cells →
      Reads land cells (.get key) (.value (.ok cell.value))
  | getMissing {key : K} {parent : Link} {side : Side} : land key = .gap parent side →
      Reads land cells (.get key) (.value (.error .keyNotFound))
  | updateMissing {key : K} {change : V → V} {parent : Link} {side : Side} :
      land key = .gap parent side →
        Reads land cells (.update key change) (.value (.error .keyNotFound))
  | contains {key : K} {cell : Cell K V} : land key = .found cell.slot → cell ∈ cells →
      Reads land cells (.contains key) (.flag true)
  | containsMissing {key : K} {parent : Link} {side : Side} : land key = .gap parent side →
      Reads land cells (.contains key) (.flag false)
  | removeMissing {key : K} {parent : Link} {side : Side} : land key = .gap parent side →
      Reads land cells (.remove key) (.entry (.error .keyNotFound))
  | outermost {side : Side} {cell : Cell K V} {others : List (Cell K V)} :
      cells = side.attach cell others → Reads land cells (.outermost side) (.entry (.ok cell.entry))
  | outermostMissing {side : Side} : cells = [] →
      Reads land cells (.outermost side) (.entry (.error .emptyContainer))
  | popMissing {side : Side} : cells = [] →
      Reads land cells (.pop side) (.entry (.error .emptyContainer))
  | length : Reads land cells .length (.number cells.length)
  | isEmpty : Reads land cells .isEmpty (.flag cells.isEmpty)
  | height (height : Nat) : Reads land cells .height (.number height)
  | capacity (capacity : Nat) : Reads land cells .capacity (.number capacity)
  | entries : Reads land cells .entries (.entries (cells.map Cell.entry))
  | iterate {view : Session.View} {steps : List Session.IteratorStep} :
      Reads land cells (.iterate view steps)
        (.iterated (Session.listSteps view steps (cells.map Cell.entry)))
  | copy : Reads land cells .copy .done

/-- The effect of an operation: its answer, the cells afterwards, and the values that the
engine lets go of. -/
inductive Effect (land : K → Landing) :
    Operation τ K V → List (Cell K V) → Answer τ K V → List (Cell K V) → List V → Prop
  /-- No cell is touched. -/
  | reads {operation : Operation τ K V} {cells : List (Cell K V)} {answer : Answer τ K V} :
      Reads land cells operation answer → Effect land operation cells answer cells []
  /-- A new cell comes into the empty place where the descent has ended. -/
  | create {key : K} {value : V} {policy : DuplicatePolicy} {parent : Link} {side : Side}
      {front back : List (Cell K V)} (slot : SlotId) :
      land key = .gap parent side → Gap parent side front back →
        Effect land (.insert key value policy) (front ++ back)
          (.stored (.ok none)) (front ++ ⟨slot, key, value⟩ :: back) []
  /-- There is no storage for a new cell. -/
  | exhausted {key : K} {value : V} {policy : DuplicatePolicy} {parent : Link} {side : Side}
      {cells : List (Cell K V)} :
      land key = .gap parent side →
        Effect land (.insert key value policy) cells
          (.stored (.error .allocationFailure)) cells [value]
  /-- The cell whose key was found equal gets another value. -/
  | overwrite {key : K} {value : V} (front : List (Cell K V)) (cell : Cell K V)
      (back : List (Cell K V)) :
      land key = .found cell.slot →
        Effect land (.insert key value .overwrite) (front ++ cell :: back)
          (.stored (.ok (some cell.value))) (front ++ cell.withValue value :: back) []
  /-- A key was found equal, so the entry is refused. -/
  | reject {key : K} {value : V} {cell : Cell K V} {cells : List (Cell K V)} :
      land key = .found cell.slot → cell ∈ cells →
        Effect land (.insert key value .reject) cells
          (.stored (.error .keyAlreadyExists)) cells [value]
  /-- The cell whose key was found equal gets a changed value. -/
  | update {key : K} {change : V → V} (front : List (Cell K V)) (cell : Cell K V)
      (back : List (Cell K V)) :
      land key = .found cell.slot →
        Effect land (.update key change) (front ++ cell :: back)
          (.value (.ok (change cell.value)))
          (front ++ cell.withValue (change cell.value) :: back) []
  /-- The cell whose key was found equal is removed. -/
  | remove {key : K} (front : List (Cell K V)) (cell : Cell K V) (back : List (Cell K V)) :
      land key = .found cell.slot →
        Effect land (.remove key) (front ++ cell :: back)
          (.entry (.ok cell.entry)) (front ++ back) []
  /-- The outermost cell is removed. -/
  | pop {side : Side} (cell : Cell K V) (others : List (Cell K V)) :
      Effect land (.pop side) (side.attach cell others) (.entry (.ok cell.entry)) others []
  /-- All cells are removed. -/
  | clear {cells : List (Cell K V)} {released : List V} :
      released.Perm (cells.map Cell.value) → Effect land .clear cells .done [] released
  /-- A cursor is used. -/
  | traverse {moves : List (Cursor.Move V)} {cells cells' : List (Cell K V)}
      {outcomes : List (Cursor.Outcome K V)} :
      Cursor.Effects moves none cells outcomes cells' →
        Effect land (.traverse moves) cells (.traversed outcomes) cells' []
  /-- The cells are filtered. -/
  | retain {keep : K → V → StateM τ (Bool × V)} {state final : τ}
      {cells cells' : List (Cell K V)} {released : List V} :
      Sifts keep state cells final cells' released →
        Effect land (.retain keep state) cells (.retained final) cells' released

end Operation

/-! ## Order -/

/-- What stays the same of a cell as long as it is stored. -/
def Cell.tag (cell : Cell K V) : SlotId × K :=
  (cell.slot, cell.key)

theorem Cursor.Effect.sublist {move : Cursor.Move V} {last last' : Link}
    {cells cells' : List (Cell K V)} {outcome : Cursor.Outcome K V}
    (h : Cursor.Effect move last cells outcome last' cells') :
    (cells'.map Cell.tag).Sublist (cells.map Cell.tag) := by
  cases h with
  | replace front cell back value => simp [Cell.tag, Cell.withValue]
  | remove front cell back =>
    exact ((List.sublist_cons_self cell back).append_left front).map Cell.tag
  | _ => exact .refl _

theorem Cursor.Effects.sublist {moves : List (Cursor.Move V)} {last : Link}
    {cells cells' : List (Cell K V)} {outcomes : List (Cursor.Outcome K V)}
    (h : Cursor.Effects moves last cells outcomes cells') :
    (cells'.map Cell.tag).Sublist (cells.map Cell.tag) := by
  induction h with
  | nil => exact .refl _
  | cons hfirst _ ih => exact ih.trans hfirst.sublist

namespace Operation

theorem Sifts.sublist {keep : K → V → StateM τ (Bool × V)} {state final : τ}
    {cells cells' : List (Cell K V)} {released : List V}
    (h : Sifts keep state cells final cells' released) :
    (cells'.map Cell.tag).Sublist (cells.map Cell.tag) := by
  induction h with
  | done => exact .refl _
  | keeps front cell back _ _ ih => simpa [Cell.tag, Cell.withValue] using ih
  | drops front cell back _ _ ih =>
    exact ih.trans (((List.sublist_cons_self cell back).append_left front).map Cell.tag)

/-- No operation reorders cells: it either only adds some or only removes some. -/
theorem Effect.sublist {land : K → Landing} {operation : Operation τ K V}
    {cells cells' : List (Cell K V)} {answer : Answer τ K V} {released : List V}
    (h : Effect land operation cells answer cells' released) :
    (cells.map Cell.tag).Sublist (cells'.map Cell.tag) ∨
      (cells'.map Cell.tag).Sublist (cells.map Cell.tag) := by
  cases h with
  | create slot _ _ => exact .inl (((List.sublist_cons_self _ _).append_left _).map Cell.tag)
  | overwrite front cell back => exact .inr (by simp [Cell.tag, Cell.withValue])
  | update front cell back => exact .inr (by simp [Cell.tag, Cell.withValue])
  | remove front cell back =>
    exact .inr (((List.sublist_cons_self cell back).append_left front).map Cell.tag)
  | @pop side cell =>
    refine .inr (List.Sublist.map Cell.tag ?_)
    cases side with
    | left => exact List.sublist_cons_self cell cells'
    | right => exact List.sublist_append_left cells' [cell]
  | clear _ => exact .inr (List.nil_sublist _)
  | traverse heffects => exact .inr heffects.sublist
  | retain hsifts => exact .inr hsifts.sublist
  | _ => exact .inr (.refl _)

end Operation

end RedBlack
