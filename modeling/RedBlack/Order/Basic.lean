/-!
# Orders

Three-way comparisons of keys. Nothing here asks for a lawful one: an `Order` is any
function that answers `lt`, `eq` or `gt`.
-/

namespace RedBlack

/-- A three-way comparison. -/
abbrev Order (K : Type) := K → K → Ordering

namespace Order

variable {K : Type}

/-- The arguments exchanged. -/
def reversed (order : Order K) : Order K :=
  fun a b => order b a

/-- The same answer to every question. -/
def constant (answer : Ordering) : Order K :=
  fun _ _ => answer

/-- Reversing twice gives the order itself. -/
@[simp]
theorem reversed_reversed (order : Order K) : order.reversed.reversed = order := rfl

end Order

end RedBlack
