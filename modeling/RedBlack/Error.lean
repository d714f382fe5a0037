/-!
# Errors

The causes for which an operation on a map, a set or a cursor can be refused, and the
wording of each. A refused operation leaves its container as it was.
-/

namespace RedBlack

/-- Why an operation was refused. -/
inductive Error where
  /-- The key type occupies no storage, so a configured container of it is refused. -/
  | zeroSizedKey
  /-- A configuration was supplied without a comparator. -/
  | missingComparator
  /-- No stored key is equivalent to the one asked for. -/
  | keyNotFound
  /-- An equivalent key is stored already. -/
  | keyAlreadyExists
  /-- Node storage could not grow. -/
  | allocationFailure
  /-- The least or greatest entry of an empty container was asked for. -/
  | emptyContainer
  /-- A cursor was asked to remove before yielding an entry, or twice in a row. -/
  | invalidCursorState
deriving DecidableEq

namespace Error

/-- All causes, in the order in which they are documented. -/
def all : List Error :=
  [zeroSizedKey, missingComparator, keyNotFound, keyAlreadyExists, allocationFailure,
    emptyContainer, invalidCursorState]

/-- The wording of an error. -/
def message : Error → String
  | zeroSizedKey => "key type has zero size"
  | missingComparator => "no comparator configured"
  | keyNotFound => "key not found"
  | keyAlreadyExists => "key already exists"
  | allocationFailure => "node storage allocation failed"
  | emptyContainer => "container is empty"
  | invalidCursorState => "cursor has no element to remove"

/-- Every cause is listed. -/
theorem mem_all (error : Error) : error ∈ all := by
  cases error <;> decide

end Error

end RedBlack
