/-! # Byte sequences

Every buffer of the library is a list of bytes. This module fixes the fixed-width number
encodings and the one way in which a buffer is cut: all of the requested bytes, or none.
-/
namespace PlaneArchive

abbrev Bytes := List UInt8

namespace Bytes

/-- The `width` low digits of `n` in base 256, most significant first. -/
def bigEndian : Nat → Nat → Bytes
  | 0, _ => []
  | width + 1, n => bigEndian width (n / 256) ++ [UInt8.ofNat n]

/-- The number whose base-256 digits are `digits`, most significant first. -/
def ofBigEndian (digits : Bytes) : Nat :=
  digits.foldl (fun n digit => n * 256 + digit.toNat) 0

/-- The number whose base-256 digits are `digits`, least significant first. -/
def ofLittleEndian : Bytes → Nat
  | [] => 0
  | digit :: digits => digit.toNat + 256 * ofLittleEndian digits

def zeros (count : Nat) : Bytes := List.replicate count 0

/-- Cuts off exactly `count` bytes; fails when there are fewer. -/
def split? (count : Nat) (bytes : Bytes) : Option (Bytes × Bytes) :=
  let front := bytes.take count
  if front.length = count then some (front, bytes.drop count) else none

/-- The `count` bytes that start at `start`, fewer at the end of the buffer. -/
def slice (start count : Nat) (bytes : Bytes) : Bytes := (bytes.drop start).take count

def untilZero (bytes : Bytes) : Bytes := bytes.takeWhile (· != 0)

def endsWith (ending bytes : Bytes) : Bool := ending.isSuffixOf bytes

theorem split?_eq_some {count : Nat} {bytes front rest : Bytes}
    (h : split? count bytes = some (front, rest)) :
    bytes = front ++ rest ∧ front.length = count := by
  simp only [split?] at h
  split at h
  · next hl =>
    injection h with h
    injection h with hf hr
    subst hf hr
    exact ⟨(List.take_append_drop count bytes).symm, hl⟩
  · cases h

theorem split?_append (front rest : Bytes) :
    split? front.length (front ++ rest) = some (front, rest) := by
  simp [split?]

theorem split?_append_of_split? {count : Nat} {bytes front rest : Bytes}
    (h : split? count bytes = some (front, rest)) (more : Bytes) :
    split? count (bytes ++ more) = some (front, rest ++ more) := by
  obtain ⟨rfl, rfl⟩ := split?_eq_some h
  rw [List.append_assoc, split?_append]

theorem split?_eq_none {count : Nat} {bytes : Bytes} (h : bytes.length < count) :
    split? count bytes = none := by
  rw [split?]
  refine if_neg ?_
  rw [List.length_take]
  omega

theorem length_rest_of_split? {count : Nat} {bytes front rest : Bytes}
    (h : split? count bytes = some (front, rest)) : rest.length + count = bytes.length := by
  obtain ⟨rfl, hl⟩ := split?_eq_some h
  simp [hl, Nat.add_comm]

@[simp] theorem length_bigEndian (width n : Nat) : (bigEndian width n).length = width := by
  induction width generalizing n with
  | zero => rfl
  | succ width ih => simp [bigEndian, ih]

end Bytes
end PlaneArchive
