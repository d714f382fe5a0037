import Mathlib.Algebra.Order.Group.Multiset
import Mathlib.Tactic.Abel
import RedBlack.Proofs.Engine.Container
import RedBlack.Proofs.Engine.InOrder

/-!
# The Ledger of an Operation

Which values go into a container with an operation and which come out of it: those that are
given to it (`entered`), those that it hands back in its answer (`handed`), and those that the
engine lets go of. If no value is changed where it lies (`KeepsValues`), the values that are
stored before an operation and those given to it are, counted with multiplicity, those stored
afterwards, those handed back and those let go of (`Operation.Effect.conserves`).

Going on with a copy moves nothing: the copy takes the place of the container and of its values.
-/

namespace RedBlack

open Engine (Landing)

variable {σ τ K V : Type}

/-- The values of some cells. -/
def Cell.values (cells : List (Cell K V)) : Multiset V :=
  cells.map Cell.value

/-- One cell more among others. -/
theorem Cell.values_middle (front : List (Cell K V)) (cell : Cell K V) (back : List (Cell K V)) :
    values (front ++ cell :: back) = values (front ++ back) + {cell.value} := by
  have hfirst : (front ++ cell :: back).Perm (cell :: (front ++ back)) := List.perm_middle
  calc values (front ++ cell :: back)
    _ = cell.value ::ₘ values (front ++ back) := Multiset.coe_eq_coe.2 (hfirst.map Cell.value)
    _ = values (front ++ back) + {cell.value} := by rw [← Multiset.singleton_add, add_comm]

/-- One cell more on one side of others. -/
theorem Cell.values_attach (side : Side) (cell : Cell K V) (others : List (Cell K V)) :
    values (side.attach cell others) = values others + {cell.value} := by
  cases side with
  | left => exact values_middle [] cell others
  | right =>
    have hlast := values_middle others cell []
    rw [List.append_nil] at hlast
    exact hlast

namespace Cursor

/-- The values that a cursor hands back. -/
def Outcome.handed : Cursor.Outcome K V → Multiset V
  | .removed (.ok entry) => {entry.2}
  | _ => 0

/-- One use of a cursor that replaces no value. -/
theorem Effect.conserves {move : Cursor.Move V} {last last' : Link} {cells cells' : List (Cell K V)}
    {outcome : Cursor.Outcome K V} (h : Effect move last cells outcome last' cells')
    (hmove : ∀ value, move ≠ .replace value) :
    Cell.values cells = Cell.values cells' + outcome.handed := by
  cases h with
  | replace front cell back value => exact absurd rfl (hmove value)
  | remove front cell back => exact Cell.values_middle front cell back
  | _ => exact (add_zero _).symm

/-- Uses of a cursor that replace no value. -/
theorem Effects.conserves {moves : List (Cursor.Move V)} {last : Link}
    {cells cells' : List (Cell K V)} {outcomes : List (Cursor.Outcome K V)}
    (h : Effects moves last cells outcomes cells') (hmoves : ∀ value, .replace value ∉ moves) :
    Cell.values cells = Cell.values cells' + (outcomes.map Outcome.handed).sum := by
  induction h with
  | nil => exact (add_zero _).symm
  | @cons move moves _ _ _ _ _ outcome _ hfirst _ ih =>
    have hmove : ∀ value, move ≠ .replace value := fun value h =>
      hmoves value (h ▸ List.mem_cons_self)
    have hrest := ih fun value h => hmoves value (List.mem_cons_of_mem move h)
    rw [hfirst.conserves hmove, hrest, List.map_cons, List.sum_cons]
    abel

end Cursor

namespace Operation

/-- The operation changes no value where it lies. -/
def KeepsValues : Operation τ K V → Prop
  | .update _ change => ∀ value, change value = value
  | .retain keep _ => ∀ key value state, (keep key value state).1.2 = value
  | .traverse moves => ∀ value, .replace value ∉ moves
  | _ => True

/-- The values that are given to an operation. -/
def entered : Operation τ K V → Multiset V
  | .insert _ value _ => {value}
  | _ => 0

/-- The values that an operation hands back with its answer. -/
def handed : Operation τ K V → Answer τ K V → Multiset V
  | .insert _ _ _, .stored (.ok (some value)) => {value}
  | .remove _, .entry (.ok entry) => {entry.2}
  | .pop _, .entry (.ok entry) => {entry.2}
  | .traverse _, .traversed outcomes => (outcomes.map Cursor.Outcome.handed).sum
  | _, _ => 0

/-- A filter that changes no value. -/
theorem Sifts.conserves {keep : K → V → StateM τ (Bool × V)} {state final : τ}
    {cells cells' : List (Cell K V)} {released : List V}
    (h : Sifts keep state cells final cells' released)
    (hkeep : ∀ key value state, (keep key value state).1.2 = value) :
    Cell.values cells = Cell.values cells' + released := by
  induction h with
  | done => exact (add_zero _).symm
  | @keeps state _ _ _ _ front cell back value hvalue _ ih =>
    have hsame : value = cell.value := by
      rw [← hkeep cell.key cell.value state, hvalue]
    rw [← ih, hsame]
    rfl
  | @drops state _ _ _ released front cell back value hvalue _ ih =>
    have hsame : value = cell.value := by
      rw [← hkeep cell.key cell.value state, hvalue]
    rw [Cell.values_middle, ih, hsame, ← Multiset.cons_coe, ← Multiset.singleton_add]
    abel

/-- An operation that only reads hands nothing back. -/
theorem Reads.handed_eq {land : K → Landing} {operation : Operation τ K V}
    {cells : List (Cell K V)} {answer : Answer τ K V} (h : Reads land cells operation answer) :
    operation.entered = 0 ∧ operation.handed answer = 0 := by
  cases h <;> exact ⟨rfl, rfl⟩

/-- What is stored and what is given to an operation is what is stored afterwards, handed back
or let go of. -/
theorem Effect.conserves {land : K → Landing} {operation : Operation τ K V}
    {cells cells' : List (Cell K V)} {answer : Answer τ K V} {released : List V}
    (h : Effect land operation cells answer cells' released) (hkeeps : operation.KeepsValues) :
    Cell.values cells + operation.entered =
      Cell.values cells' + operation.handed answer + released := by
  cases h with
  | reads hreads =>
    obtain ⟨hentered, hhanded⟩ := hreads.handed_eq
    rw [hentered, hhanded, add_zero, Multiset.coe_nil, add_zero]
  | @create key value _ _ _ front back slot =>
    rw [Cell.values_middle front ⟨slot, key, value⟩ back]
    simp only [entered, handed, Multiset.coe_nil, add_zero]
  | exhausted => simp only [entered, handed, Multiset.coe_singleton, add_zero]
  | @overwrite key value front cell back =>
    rw [Cell.values_middle front cell back, Cell.values_middle front (cell.withValue value) back]
    simp only [entered, handed, Multiset.coe_nil, add_zero]
    exact add_right_comm _ _ _
  | reject => simp only [entered, handed, Multiset.coe_singleton, add_zero]
  | @update key change front cell back =>
    have hsame : cell.withValue (change cell.value) = cell := congrArg cell.withValue (hkeeps _)
    rw [hsame]
    simp only [entered, handed, Multiset.coe_nil, add_zero]
  | remove front cell back =>
    rw [Cell.values_middle front cell back]
    simp only [entered, handed, Cell.entry, Multiset.coe_nil, add_zero]
  | @pop side cell others =>
    rw [Cell.values_attach]
    simp only [entered, handed, Cell.entry, Multiset.coe_nil, add_zero]
  | clear hreleased =>
    have hall : (released : Multiset V) = Cell.values cells := Multiset.coe_eq_coe.2 hreleased
    rw [hall]
    simp only [entered, handed, Cell.values, List.map_nil, Multiset.coe_nil, add_zero, zero_add]
  | traverse heffects =>
    rw [heffects.conserves hkeeps]
    simp only [entered, handed, Multiset.coe_nil, add_zero]
  | retain hsifts =>
    rw [hsifts.conserves hkeeps]
    simp only [entered, handed, add_zero]

end Operation

/-! ## Maps -/

namespace OrderedMap.Operation

/-- What a map asks of the engine in an operation. -/
def onEngine : OrderedMap.Operation τ K V → RedBlack.Operation τ K V
  | insert key value => .insert key value .overwrite
  | remove key => .remove key
  | removeEntry key => .remove key
  | shared operation => operation

/-- The values that a map hands back with its answer. -/
def handed : OrderedMap.Operation τ K V → Answer τ K V → Multiset V
  | insert _ _, .stored (.ok (some value)) => {value}
  | remove _, .value (.ok value) => {value}
  | removeEntry _, .entry (.ok entry) => {entry.2}
  | shared operation, answer => operation.handed answer
  | _, _ => 0

/-- A map hands back what the engine does. -/
theorem exists_follow_eq (comparator : Comparator σ K) (operation : OrderedMap.Operation τ K V)
    (snapshot : Snapshot σ K V) :
    ∃ answer, snapshot.perform comparator operation.onEngine =
        (answer, (operation.follow comparator snapshot).2) ∧
      operation.handed (operation.follow comparator snapshot).1 =
        operation.onEngine.handed answer := by
  cases operation with
  | insert key value =>
    let stored := (snapshot.insert comparator key value .overwrite).1
    refine ⟨.stored stored, rfl, ?_⟩
    change (insert key value).handed (.stored stored) = _
    rcases stored with _ | _ | _ <;> rfl
  | remove key =>
    let found := (snapshot.remove comparator key).1
    refine ⟨.entry found, rfl, ?_⟩
    change (remove key).handed (.value (found.map Prod.snd)) = _
    rcases found with _ | _ <;> rfl
  | removeEntry key =>
    let found := (snapshot.remove comparator key).1
    refine ⟨.entry found, rfl, ?_⟩
    change (removeEntry key).handed (.entry found) = _
    rcases found with _ | _ <;> rfl
  | shared operation => exact ⟨_, rfl, rfl⟩

/-- What is stored and what is given to a map is what is stored afterwards, handed back or let
go of. -/
theorem follow_conserves (comparator : Comparator σ K) {operation : OrderedMap.Operation τ K V}
    (hkeeps : operation.onEngine.KeepsValues) (snapshot : Snapshot σ K V) :
    ∃ released : List V,
      (operation.follow comparator snapshot).2.released = snapshot.released ++ released ∧
      Cell.values snapshot.cells + operation.onEngine.entered =
        Cell.values (operation.follow comparator snapshot).2.cells +
          operation.handed (operation.follow comparator snapshot).1 + released := by
  obtain ⟨answer, hperform, hhanded⟩ := exists_follow_eq comparator operation snapshot
  obtain ⟨released, hreleased, heffect⟩ := snapshot.effect comparator operation.onEngine
  rw [hperform] at hreleased heffect
  exact ⟨released, hreleased, hhanded ▸ heffect.conserves hkeeps⟩

end OrderedMap.Operation

end RedBlack
