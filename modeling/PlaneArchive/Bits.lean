import PlaneArchive.Bytes

/-! # Bits of a byte array

Bits are counted from the low end of the first byte, and a run of bits is a number whose least
significant bit comes first. A position may also be read downwards, from the end of the bits.
-/
namespace PlaneArchive.Bits

def bit? (data : Array UInt8) (position : Nat) : Option Nat :=
  (data[position / 8]?).map fun byte => (byte.toNat >>> (position % 8)) % 2

/-- The number in the `count` bits from `position` on. -/
def number? (data : Array UInt8) : (count position : Nat) → Option Nat
  | 0, _ => some 0
  | count + 1, position => do
    let low ← bit? data position
    let high ← number? data count (position + 1)
    return low + 2 * high

/-- The number in the `count` bits below `position`, and the position below them. -/
def numberBelow? (data : Array UInt8) (count position : Nat) : Option (Nat × Nat) :=
  if count ≤ position then
    (number? data count (position - count)).map fun n => (n, position - count)
  else none

/-- The end of the bits that are read downwards: they are followed by a one, and zeros fill up the
last byte. -/
def markedEnd? (data : Array UInt8) : Option Nat :=
  match data.back? with
  | none => none
  | some last => if last = 0 then none else some (8 * (data.size - 1) + Nat.log2 last.toNat)

end PlaneArchive.Bits
