import RedBlack.Order.Basic

/-!
# Comparators

What a container asks to place a key. A comparator may remember things, so its answers can
change from question to question; the engine makes no use of any law. An `Order` is a
comparator that pays no heed to its memory.
-/

namespace RedBlack

/-- A three-way comparison with a memory of its own. -/
abbrev Comparator (σ K : Type) := K → K → StateM σ Ordering

namespace Comparator

variable {σ K : Type}

/-- The comparator that answers by an order. -/
def ofOrder (order : Order K) : Comparator σ K :=
  fun a b => pure (order a b)

/-- The arguments exchanged. -/
def reversed (comparator : Comparator σ K) : Comparator σ K :=
  fun a b => comparator b a

/-- The arguments exchanged a number of times. -/
def reversedTimes (comparator : Comparator σ K) : Nat → Comparator σ K
  | 0 => comparator
  | times + 1 => (comparator.reversedTimes times).reversed

/-- The answers to several questions, asked in order. -/
def askAll (comparator : Comparator σ K) : List (K × K) → StateM σ (List Ordering)
  | [] => return []
  | (a, b) :: questions => do
    let answer ← comparator a b
    return answer :: (← comparator.askAll questions)

/-- Reversing twice gives the comparator itself. -/
@[simp]
theorem reversed_reversed (comparator : Comparator σ K) :
    comparator.reversed.reversed = comparator := rfl

/-- Reversing an order and then memory is the same as memory with the arguments exchanged. -/
theorem reversed_ofOrder (order : Order K) :
    (ofOrder order : Comparator σ K).reversed = ofOrder order.reversed := rfl

end Comparator

/-- A comparator's memory together with what it was asked. -/
structure Record (σ K : Type) where
  /-- What the comparator remembers. -/
  memory : σ
  /-- The questions so far, in order. -/
  questions : Array (K × K) := #[]

namespace Comparator

variable {σ K : Type}

/-- Answers like another comparator and records the question. -/
def recording (comparator : Comparator σ K) : Comparator (Record σ K) K :=
  fun a b { memory, questions } =>
    let (answer, memory) := comparator a b memory
    (answer, { memory, questions := questions.push (a, b) })

/-- Answers by an order for the first `limit` questions and by its reverse from then on. It
remembers the number of its answers. -/
def flipping (limit : Nat) (order : Order K) : Comparator Nat K :=
  fun a b answers => (if answers < limit then order a b else order.reversed a b, answers + 1)

end Comparator

end RedBlack
