import RedBlack.Display
import RedBlack.Engine.Access
import RedBlack.Order.Key

/-!
# Kinds of Keys and Contents

What a session needs to know about the type of its keys, and about what is stored beside
them: a number in a map, nothing in a set.
-/

namespace RedBlack

/-- A type of keys. -/
class KeyKind (K : Type) where
  /-- The natural order. -/
  order : Order K
  /-- Whether the keys occupy no storage. -/
  zeroSized : Bool := false
  /-- The printed form. -/
  display : K → Display
  /-- The number that the key is, if it is one. -/
  number? : K → Option Int := fun _ => none
  /-- The key that a number is, if there is one. -/
  ofNumber? : Int → Option K := fun _ => none

instance : KeyKind Int64 where
  order := Order.int64
  display n := .number n.toInt
  number? n := some n.toInt
  ofNumber? n := some (Int64.ofInt n)

instance : KeyKind UInt64 where
  order := Order.uint64
  display n := .number n.toNat
  number? n := some n.toNat
  ofNumber? n := some (UInt64.ofNat n.toNat)

instance : KeyKind String where
  order := Order.text
  display := .quoted

instance : KeyKind (List UInt8) where
  order := Order.bytes
  display bytes := .list (bytes.map fun byte => .number byte.toNat)

instance : KeyKind (List Int64) where
  order := Order.int64s
  display numbers := .list (numbers.map fun n => .number n.toInt)

instance : KeyKind (Int64 × String) where
  order := Order.pair
  display pair := .tuple [.number pair.1.toInt, .quoted pair.2]

instance : KeyKind Unit where
  order := Order.unit
  zeroSized := true
  display _ := .atom "()"

/-- A type of what is stored beside a key. -/
class Contents (V : Type) where
  /-- What is stored for the entry of a number in a sequence of insertions. -/
  ofIndex : Nat → V
  /-- The number that it counts as. -/
  number : V → Int
  /-- Add a number to it, wrapping around. -/
  add : V → Int64 → V
  /-- What an insertion does with a key that is stored already. -/
  onDuplicate : DuplicatePolicy
  /-- The printed form of an entry, given that of its key. -/
  display : Display → V → Display

instance : Contents Int64 where
  ofIndex index := Int64.ofNat index
  number value := value.toInt
  add value n := value + n
  onDuplicate := .overwrite
  display key value := .field key (.number value.toInt)

instance : Contents Unit where
  ofIndex _ := ()
  number _ := 0
  add _ _ := ()
  onDuplicate := .reject
  display key _ := key

end RedBlack
