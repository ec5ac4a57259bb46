import PlaneArchive.Bytes

/-! # Variable-length integers

A number is written in groups of seven bits, least significant first; every byte but the last has
its top bit set. At most ten bytes are read, and they must fit 64 bits.
-/
namespace PlaneArchive.Wire

inductive WireError where
  | truncated
  /-- A number takes more than ten bytes or more than 64 bits. -/
  | varintOverflow
  | invalidKey
  | zeroFieldNumber
  | unknownWireType
  /-- A group ends that is not the innermost open one. -/
  | unmatchedGroupEnd
  | nestingLimit
  /-- A known field arrives in an encoding that is not its own. -/
  | unexpectedWireType
  | invalidText
  deriving DecidableEq, Repr

namespace Varint

def encode (n : Nat) : Bytes :=
  if n < 128 then [UInt8.ofNat n] else UInt8.ofNat (n % 128 + 128) :: encode (n / 128)

/-- The number of bytes of the canonical encoding of a 64-bit number, from its bit length. -/
def encodedLen (n : Nat) : Nat := ((n ||| 1).log2 * 9 + 73) / 64

/-- Reads the groups from position `index` on. -/
def decodeFrom : (index : Nat) → Bytes → Except WireError (Nat × Bytes)
  | _, [] => .error .truncated
  | index, byte :: rest =>
    if 10 ≤ index ∨ (index = 9 ∧ 2 ≤ byte) then .error .varintOverflow
    else if byte < 128 then .ok (byte.toNat, rest)
    else
      match decodeFrom (index + 1) rest with
      | .error e => .error e
      | .ok (n, rest) => .ok (byte.toNat % 128 + 128 * n, rest)

def decode (bytes : Bytes) : Except WireError (Nat × Bytes) := decodeFrom 0 bytes

theorem length_of_decodeFrom {index n : Nat} {bytes rest : Bytes}
    (h : decodeFrom index bytes = .ok (n, rest)) : rest.length < bytes.length := by
  induction bytes generalizing index n with
  | nil => simp [decodeFrom] at h
  | cons byte bytes ih =>
    simp only [decodeFrom] at h
    split at h
    · cases h
    · split at h
      · injection h with h
        injection h with _ h
        subst h
        simp
      · split at h
        · cases h
        · next hd =>
          injection h with h
          injection h with _ h
          subst h
          exact Nat.lt_succ_of_lt (ih hd)

theorem length_of_decode {n : Nat} {bytes rest : Bytes} (h : decode bytes = .ok (n, rest)) :
    rest.length < bytes.length :=
  length_of_decodeFrom h

end Varint
end PlaneArchive.Wire
