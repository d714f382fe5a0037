/-!
# Permutations

All arrangements of a list of items, by backtracking over two buffers: which positions are
taken, and the items taken so far. Positions count, not items, so equal items give equal
arrangements more than once. Arrangements come in lexicographic order of their positions.
-/

namespace RedBlack

namespace Permutations

/-- The buffers of the search. -/
structure Scratch (α : Type) where
  /-- Whether each position is taken. -/
  used : Array Bool
  /-- The items taken so far, in order. -/
  out : Array α

namespace Scratch

variable {α : Type}

/-- The buffers when no position of `items` is taken. -/
def start (items : Array α) : Scratch α :=
  { used := Array.replicate items.size false, out := #[] }

/-- Whether a position is taken; there is nothing to take outside of the list. -/
def isUsed (scratch : Scratch α) (position : Nat) : Bool :=
  scratch.used.getD position true

/-- Take the item at a position. -/
def take (scratch : Scratch α) (position : Nat) (item : α) : Scratch α :=
  { used := scratch.used.setIfInBounds position true, out := scratch.out.push item }

/-- Give the item that was taken last, which stands at a position, back. -/
def giveBack (scratch : Scratch α) (position : Nat) : Scratch α :=
  { used := scratch.used.setIfInBounds position false, out := scratch.out.pop }

end Scratch

variable {α β : Type}

/-- Visit every way to complete the items taken so far by the given number of free ones. -/
def extend (items : Array α) (visit : β → Array α → β) : Nat → Scratch α × β → Scratch α × β
  | 0, (scratch, result) => (scratch, visit result scratch.out)
  | missing + 1, state =>
    (List.range items.size).foldl
      (fun (scratch, result) position =>
        match items[position]?, scratch.isUsed position with
        | some item, false =>
          let (scratch, result) :=
            extend items visit missing (scratch.take position item, result)
          (scratch.giveBack position, result)
        | _, _ => (scratch, result))
      state

/-- Visit every arrangement of the items, in order. -/
def fold (items : Array α) (visit : β → Array α → β) (result : β) : β :=
  (extend items visit items.size (Scratch.start items, result)).2

/-- The list of all arrangements, in order. -/
def all (items : Array α) : Array (Array α) :=
  fold items Array.push #[]

end Permutations

end RedBlack
