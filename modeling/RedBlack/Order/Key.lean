import RedBlack.Order.Basic

/-!
# Key Orders

The natural order of each kind of key, and coarser or cyclic comparisons that look at a
part of a key: a remainder, a length, one component. The coarser ones call different keys
equal; `cyclic` is not an order at all.
-/

namespace RedBlack

namespace Order

/-! ## Numbers -/

/-- Signed numbers by value. -/
def int64 : Order Int64 := compareOn Int64.toInt

/-- Signed numbers by absolute value, which is 2^63 for the least number. -/
def absolute : Order Int64 := compareOn fun n => n.toInt.natAbs

/-- Signed numbers by their remainder, which is never negative. -/
def remainder (modulus : Int) : Order Int64 := compareOn fun n => n.toInt % modulus

/-- Signed numbers by their quotient, rounded towards minus infinity. -/
def quotient (divisor : Int) : Order Int64 := compareOn fun n => n.toInt.fdiv divisor

/-- Even numbers before odd ones, and each by value. -/
def evenFirst : Order Int64 := compareLex (remainder 2) int64

/-- Rock, paper, scissors: a number beats the one that is smaller by one modulo three. -/
def cyclic : Order Int64 := fun a b =>
  match (a.toInt - b.toInt) % 3 with
  | 0 => .eq
  | 1 => .gt
  | _ => .lt

/-- Unsigned numbers by value. -/
def uint64 : Order UInt64 := compareOn UInt64.toNat

/-- Unsigned numbers by their remainder. -/
def unsignedRemainder (modulus : Nat) : Order UInt64 := compareOn fun n => n.toNat % modulus

/-- The number of one bits of an unsigned number. -/
def oneBits (n : UInt64) : Nat := (List.range 64).countP n.toNat.testBit

/-- Unsigned numbers by the number of their one bits. -/
def bitCount : Order UInt64 := compareOn oneBits

/-! ## Text -/

/-- Text by code points, a proper beginning first. -/
def text : Order String := compare

/-- Text by the length of its UTF-8 form. -/
def byteLength : Order String := compareOn String.utf8ByteSize

/-- Text by its number of code points. -/
def charCount : Order String := compareOn String.length

/-- Text with the letters A to Z read as a to z; no other letter is changed. -/
def asciiCaseless : Order String := compareOn fun s => s.map Char.toLower

/-! ## Sequences -/

/-- Bytes in sequence, a proper beginning first. -/
def bytes : Order (List UInt8) := compareOn fun bs => bs.map UInt8.toNat

/-- Signed numbers in sequence, a proper beginning first. -/
def int64s : Order (List Int64) := compareOn fun ns => ns.map Int64.toInt

/-- Sequences by their length. -/
def length {α : Type} : Order (List α) := compareOn List.length

/-- Bytes by the last one, with no byte before any byte. -/
def lastByte : Order (List UInt8) := compareOn fun bs => bs.getLast?.map UInt8.toNat

/-! ## Pairs -/

/-- Pairs by their number. -/
def first : Order (Int64 × String) := fun a b => int64 a.1 b.1

/-- Pairs by their text. -/
def second : Order (Int64 × String) := fun a b => text a.2 b.2

/-- Pairs by their number, then by their text. -/
def pair : Order (Int64 × String) := compareLex first second

/-- Pairs by their text, then by their number. -/
def swapped : Order (Int64 × String) := compareLex second first

/-- Values without content, which are all equal. -/
def unit : Order Unit := constant .eq

end Order

end RedBlack
