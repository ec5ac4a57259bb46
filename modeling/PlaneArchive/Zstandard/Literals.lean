import PlaneArchive.Zstandard.WeightedCode

/-! # Literals of a block

A coded block starts with its literals: the bytes that are not matched. They are stored, one byte
repeated, or coded, with a code of their own or with the code of an earlier block.
-/
namespace PlaneArchive.Zstandard

inductive LiteralsKind where
  | stored
  | repeated
  | coded
  /-- Coded with the last code of the frame. -/
  | codedAgain
  deriving DecidableEq, Repr

def LiteralsKind.ofBits : Nat → LiteralsKind
  | 0 => .stored
  | 1 => .repeated
  | 2 => .coded
  | _ => .codedAgain

structure LiteralsHeader where
  kind : LiteralsKind
  count : Nat
  /-- The number of bytes that they take. -/
  size : Nat
  isSplit : Bool
  deriving DecidableEq, Repr

namespace LiteralsHeader

/-- Two numbers of `width` bits after the first `skip` bits of a header of `length` bytes. -/
def fields? (bytes : Bytes) (length skip width : Nat) : Option (Nat × Nat × Bytes) := do
  let (header, rest) ← Bytes.split? length bytes
  let n := Bytes.ofLittleEndian header >>> skip
  return (n % (1 <<< width), n >>> width, rest)

/-- Reads a header from the front of `bytes`. Its length depends on two bits of the first byte. -/
def read? (bytes : Bytes) : Option (LiteralsHeader × Bytes) :=
  let first := (bytes.headD 0).toNat
  let kind := LiteralsKind.ofBits (first % 4)
  let format := first / 4 % 4
  if kind = .stored ∨ kind = .repeated then
    let fields :=
      if format = 1 then fields? bytes 2 4 12
      else if format = 3 then fields? bytes 3 4 20
      else fields? bytes 1 3 5
    fields.map fun (count, _, rest) =>
      (⟨kind, count, if kind = .stored then count else 1, false⟩, rest)
  else
    let fields :=
      if format = 2 then fields? bytes 4 4 14
      else if format = 3 then fields? bytes 5 4 18
      else fields? bytes 3 4 10
    fields.map fun (count, size, rest) => (⟨kind, count, size, format ≠ 0⟩, rest)

end LiteralsHeader

/-- Reads the literals at the front of a block of a frame, in which at most `limit` are possible.
`last?` is the last code of the frame. Returns the literals, the last code now, and the bytes after
the literals. -/
def readLiterals? (limit : Nat) (last? : Option WeightedCode) (bytes : Bytes) :
    Option (Array UInt8 × Option WeightedCode × Bytes) := do
  let (header, rest) ← LiteralsHeader.read? bytes
  let (stored, rest) ← Bytes.split? header.size rest
  if limit < header.count ∨ (header.isSplit ∧ header.count < 6) then none
  let decode? (code : WeightedCode) (stream : Bytes) : Option (Array UInt8) :=
    if header.isSplit then code.decodeFour? stream header.count
    else code.decode? stream header.count
  match header.kind with
  | .stored => return (stored.toArray, last?, rest)
  | .repeated => return (Array.replicate header.count (stored.headD 0), last?, rest)
  | .coded =>
    let (code, stream) ← WeightedCode.read? stored
    return (← decode? code stream, some code, rest)
  | .codedAgain =>
    let code ← last?
    return (← decode? code stored, last?, rest)

end PlaneArchive.Zstandard
