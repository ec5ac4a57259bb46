import PlaneArchive.Zstandard.StateTable

/-! # Codes given by weights

A prefix code for bytes is given by a weight for each symbol: none for absent symbols, and one more
for each bit that a codeword is shorter than the longest. The weight of the last symbol follows from
the others. Shorter codewords are the larger ones.
-/
namespace PlaneArchive.Zstandard

/-- A prefix code as a table: the next `width` bits tell a symbol and the length of its codeword. -/
structure WeightedCode where
  width : Nat
  entries : Array (UInt8 × Nat)
  deriving Repr

namespace WeightedCode

def maxWidth : Nat := 12

/-- The code in which symbol `i` has weight `weights[i]`; one more symbol takes what they leave of
a power of two, which is again a power of two. At least two symbols have the longest codewords. -/
def ofWeights? (weights : List Nat) : Option WeightedCode := do
  let share (weight : Nat) : Nat := (1 <<< weight) / 2
  let total := weights.foldl (fun total weight => total + share weight) 0
  let width := Nat.log2 total + 1
  let left := (1 <<< width) - total
  if total = 0 ∨ maxWidth < width ∨ 1 <<< Nat.log2 left ≠ left then none
  let weights := weights ++ [Nat.log2 left + 1]
  if weights.count 1 < 2 ∨ weights.count 1 % 2 = 1 then none
  let entries := (List.range width).flatMap fun i =>
    weights.zipIdx.flatMap fun (weight, symbol) =>
      if weight = i + 1 then List.replicate (share weight) (UInt8.ofNat symbol, width - i) else []
  return ⟨width, entries.toArray⟩

/-- The weights in a coded stream. Two states take turns, until there are no bits for the next. -/
def walkWeights? (table : StateTable) (data : Array UInt8) :
    (fuel : Nat) → (cell other : Cell) → (position : Nat) → Option (List Nat)
  | 0, _, _, _ => none
  | fuel + 1, cell, other, position =>
    match table.next? cell data position with
    | none => some [cell.symbol, other.symbol]
    | some (cell', position) =>
      (walkWeights? table data fuel other cell' position).map (cell.symbol :: ·)

/-- Reads weights that are coded with a distribution of their own. -/
def codedWeights? (data : Array UInt8) : Option (List Nat) := do
  let (distribution, size) ← Distribution.read? data 6 256
  let table := StateTable.ofDistribution distribution
  let stream := data.extract size data.size
  let (cell, position) ← table.start? stream (← Bits.markedEnd? stream)
  let (other, position) ← table.start? stream position
  walkWeights? table stream 254 cell other position

/-- Reads a code from the front of `bytes`. The first byte is the size of the coded weights, or
from 128 on the number of weights, of which each then takes half a byte. -/
def read? (bytes : Bytes) : Option (WeightedCode × Bytes) :=
  match bytes with
  | [] => none
  | first :: rest =>
    let n := first.toNat
    if n < 128 then do
      let (coded, rest) ← Bytes.split? n rest
      return (← ofWeights? (← codedWeights? coded.toArray), rest)
    else do
      let count := n - 127
      let (packed, rest) ← Bytes.split? ((count + 1) / 2) rest
      let weights := packed.flatMap fun byte => [byte.toNat / 16, byte.toNat % 16]
      return (← ofWeights? (weights.take count), rest)

/-- Decodes symbols from the bits below `position`, which must be used up in the end. Below the
last bit zeros are assumed. -/
def walk? (code : WeightedCode) (data : Array UInt8) :
    (count position : Nat) → Array UInt8 → Option (Array UInt8)
  | 0, position, out => if position = 0 then some out else none
  | count + 1, position, out => do
    let seen := min code.width position
    let bits ← Bits.number? data seen (position - seen)
    let (symbol, length) ← code.entries[bits <<< (code.width - seen)]?
    if position < length then none
    walk? code data count (position - length) (out.push symbol)

def decode? (code : WeightedCode) (stream : Bytes) (count : Nat) : Option (Array UInt8) := do
  let data := stream.toArray
  code.walk? data count (← Bits.markedEnd? data) #[]

/-- Decodes four streams, of which the first three have the same number of symbols. Their sizes
stand in front. -/
def decodeFour? (code : WeightedCode) (bytes : Bytes) (count : Nat) : Option (Array UInt8) := do
  let (sizes, rest) ← Bytes.split? 6 bytes
  let size (i : Nat) : Nat := Bytes.ofLittleEndian (Bytes.slice (2 * i) 2 sizes)
  let (first, rest) ← Bytes.split? (size 0) rest
  let (second, rest) ← Bytes.split? (size 1) rest
  let (third, fourth) ← Bytes.split? (size 2) rest
  let part := (count + 3) / 4
  if count < 3 * part then none
  return (← code.decode? first part) ++ (← code.decode? second part)
    ++ (← code.decode? third part) ++ (← code.decode? fourth (count - 3 * part))

end WeightedCode
end PlaneArchive.Zstandard
