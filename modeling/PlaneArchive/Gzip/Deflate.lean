import PlaneArchive.Bits
import PlaneArchive.History

/-! # Deflate streams

A deflate stream is a sequence of blocks, read bit by bit from the low end of each byte. A block
is stored as it is, or coded with a fixed or a transmitted pair of prefix codes, for literals and
match lengths and for match distances. A distance may reach at most 32768 bytes back; what lies
before the start of the output counts as zeros.
-/
namespace PlaneArchive.Gzip

open Bits (bit?)

/-- A canonical prefix code: codewords of equal length are consecutive, in symbol order, and
shorter ones come first. -/
structure PrefixCode where
  counts : Array Nat
  symbols : Array Nat
  deriving Repr

namespace PrefixCode

def maxLength : Nat := 15

/-- The part of the code space, in units of the longest codeword, that the lengths use up. -/
def used (counts : Array Nat) : Nat :=
  (List.range maxLength).foldl
    (fun total i => total + (counts.getD (i + 1) 0 <<< (maxLength - (i + 1)))) 0

/-- The code in which symbol `i` has a codeword of length `lengths[i]`, or none if that is zero.
The codewords use up the code space exactly, unless there is none at all, or a single one, which
then has one bit. -/
def ofLengths? (lengths : Array Nat) : Option PrefixCode :=
  let counts := lengths.foldl (fun counts length => counts.modify length (· + 1))
    (Array.replicate (maxLength + 1) 0)
  let symbols := (List.range maxLength).foldl (fun symbols i =>
    (List.range lengths.size).foldl (fun symbols symbol =>
      if lengths.getD symbol 0 = i + 1 then symbols.push symbol else symbols) symbols) #[]
  let isSmall := symbols.isEmpty || symbols.size == 1 && counts.getD 1 0 == 1
  if isSmall || used counts == 1 <<< maxLength then some ⟨counts, symbols⟩ else none

/-- Extends the codeword read so far by one bit, until it is that of a symbol. `first` is the
first codeword of this length and `index` the position of its symbol. -/
def walk (code : PrefixCode) (data : Array UInt8) :
    (left length word first index position : Nat) → Option (Nat × Nat)
  | 0, _, _, _, _, _ => none
  | left + 1, length, word, first, index, position => do
    let bit ← bit? data position
    let word := 2 * word + bit
    let count := code.counts.getD length 0
    if word < first + count then
      let symbol ← code.symbols[index + (word - first)]?
      return (symbol, position + 1)
    else
      walk code data left (length + 1) word (2 * (first + count)) (index + count) (position + 1)

def read? (code : PrefixCode) (data : Array UInt8) (position : Nat) : Option (Nat × Nat) :=
  code.walk data maxLength 1 0 0 0 position

end PrefixCode

/-- The code for literals, lengths and the end of a block that needs no transmission. -/
def fixedLiterals : Array Nat :=
  Array.replicate 144 8 ++ Array.replicate 112 9 ++ Array.replicate 24 7 ++ Array.replicate 8 8

/-- The code for distances that needs no transmission. -/
def fixedDistances : Array Nat := Array.replicate 32 5

/-- The number of additional bits and the shortest match of each length symbol from 257 on. -/
def lengthClasses : Array (Nat × Nat) :=
  #[(0, 3), (0, 4), (0, 5), (0, 6), (0, 7), (0, 8), (0, 9), (0, 10), (1, 11), (1, 13), (1, 15),
    (1, 17), (2, 19), (2, 23), (2, 27), (2, 31), (3, 35), (3, 43), (3, 51), (3, 59), (4, 67),
    (4, 83), (4, 99), (4, 115), (5, 131), (5, 163), (5, 195), (5, 227), (0, 258)]

/-- The number of additional bits and the smallest distance of each distance symbol. -/
def distanceClasses : Array (Nat × Nat) :=
  #[(0, 1), (0, 2), (0, 3), (0, 4), (1, 5), (1, 7), (2, 9), (2, 13), (3, 17), (3, 25), (4, 33),
    (4, 49), (5, 65), (5, 97), (6, 129), (6, 193), (7, 257), (7, 385), (8, 513), (8, 769),
    (9, 1025), (9, 1537), (10, 2049), (10, 3073), (11, 4097), (11, 6145), (12, 8193), (12, 12289),
    (13, 16385), (13, 24577)]

/-- The coded body of a block, up to its end symbol. Every symbol takes at least one bit, so the
number of bits is enough fuel. -/
def codedBody? (data : Array UInt8) (literals distances : PrefixCode) :
    (fuel position : Nat) → Array UInt8 → Option (Nat × Array UInt8)
  | 0, _, _ => none
  | fuel + 1, position, out => do
    let (symbol, position) ← literals.read? data position
    if symbol < 256 then
      codedBody? data literals distances fuel position (out.push (UInt8.ofNat symbol))
    else if symbol = 256 then return (position, out)
    else
      let (extra, base) ← lengthClasses[symbol - 257]?
      let more ← Bits.number? data extra position
      let length := base + more
      let (symbol, position) ← distances.read? data (position + extra)
      let (extra, base) ← distanceClasses[symbol]?
      let more ← Bits.number? data extra position
      codedBody? data literals distances fuel (position + extra)
        (History.copyMatch (base + more) length out)

/-- The order in which the lengths of the code for code lengths are transmitted. -/
def lengthOrder : List Nat := [16, 17, 18, 0, 8, 7, 9, 6, 10, 5, 11, 4, 12, 3, 13, 2, 14, 1, 15]

/-- Reads exactly `total` code lengths, of which some are repetitions. -/
def codeLengths? (data : Array UInt8) (code : PrefixCode) (total : Nat) :
    (fuel position : Nat) → Array Nat → Option (Nat × Array Nat)
  | 0, _, _ => none
  | fuel + 1, position, lengths => do
    if lengths.size = total then return (position, lengths)
    let (symbol, position) ← code.read? data position
    if symbol < 16 then codeLengths? data code total fuel position (lengths.push symbol)
    else
      let (extra, base) := if symbol = 16 then (2, 3) else if symbol = 17 then (3, 3) else (7, 11)
      let more ← Bits.number? data extra position
      let repeated ← if symbol = 16 then lengths.back? else some 0
      let lengths := lengths ++ Array.replicate (base + more) repeated
      if total < lengths.size then none
      else codeLengths? data code total fuel (position + extra) lengths

def transmittedCodes? (data : Array UInt8) (position : Nat) :
    Option (Nat × PrefixCode × PrefixCode) := do
  let literals := 257 + (← Bits.number? data 5 position)
  let distances := 1 + (← Bits.number? data 5 (position + 5))
  let transmitted := 4 + (← Bits.number? data 4 (position + 10))
  if 286 < literals ∨ 30 < distances then none
  let position := position + 14
  let lengths ← (lengthOrder.take transmitted).zipIdx.foldlM (fun lengths (symbol, i) =>
    (Bits.number? data 3 (position + 3 * i)).map (lengths.setIfInBounds symbol ·))
    (Array.replicate 19 0)
  let code ← PrefixCode.ofLengths? lengths
  let total := literals + distances
  let (position, lengths) ← codeLengths? data code total (total + 1)
    (position + 3 * transmitted) #[]
  let literalCode ← PrefixCode.ofLengths? (lengths.take literals)
  let distanceCode ← PrefixCode.ofLengths? (lengths.drop literals)
  return (position, literalCode, distanceCode)

/-- A stored block: it starts at a whole byte and announces its length twice. -/
def storedBody? (data : Array UInt8) (position : Nat) (out : Array UInt8) :
    Option (Nat × Array UInt8) := do
  let start := (position + 7) / 8
  let length ← Bits.number? data 16 (8 * start)
  let check ← Bits.number? data 16 (8 * start + 16)
  if length + check ≠ UInt16.size - 1 then none
  let first := start + 4
  if data.size < first + length then none
  return (8 * (first + length), out ++ data.extract first (first + length))

/-- Reads blocks until the one that is marked as the last. Every block takes at least three bits,
so the number of bits is enough fuel. -/
def blocks? (data : Array UInt8) :
    (fuel position : Nat) → Array UInt8 → Option (Nat × Array UInt8)
  | 0, _, _ => none
  | fuel + 1, position, out => do
    let last ← bit? data position
    let kind ← Bits.number? data 2 (position + 1)
    let position := position + 3
    let bitCount := 8 * data.size
    let (position, out) ←
      match kind with
      | 0 => storedBody? data position out
      | 1 => do
        let literals ← PrefixCode.ofLengths? fixedLiterals
        let distances ← PrefixCode.ofLengths? fixedDistances
        codedBody? data literals distances bitCount position out
      | 2 => do
        let (position, literals, distances) ← transmittedCodes? data position
        codedBody? data literals distances bitCount position out
      | _ => none
    if last = 1 then return (position, out) else blocks? data fuel position out

/-- The content of the deflate stream at the front of `bytes`, and the number of bytes that the
stream takes. -/
def inflate? (bytes : Bytes) : Option (Bytes × Nat) := do
  let data := bytes.toArray
  let (position, out) ← blocks? data (8 * data.size) 0 #[]
  return (out.toList, (position + 7) / 8)

end PlaneArchive.Gzip
