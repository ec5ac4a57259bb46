import PlaneArchive.History
import PlaneArchive.Zstandard.StateTable

/-! # Sequences of a block

After its literals a coded block has sequences: a number of literals to take, then a match. Their
three numbers are coded as classes, by three tables of states that take turns in one stream of
bits, and further bits within the class.
-/
namespace PlaneArchive.Zstandard

structure Sequence where
  literals : Nat
  length : Nat
  /-- The distance of the match plus three, or from one to three a reference to an earlier one. -/
  distance : Nat
  deriving DecidableEq, Repr

/-- The tables for the classes of the numbers in a sequence. -/
structure SequenceTables where
  literals : StateTable
  distance : StateTable
  length : StateTable
  deriving Repr

structure NumberCoding where
  classes : Nat
  maxAccuracy : Nat
  /-- The distribution that needs no transmission. -/
  default : Distribution
  deriving Repr

namespace NumberCoding

def literals : NumberCoding where
  classes := 36
  maxAccuracy := 9
  default := ⟨6,
    [4, 3, 2, 2, 2, 2, 2, 2, 2, 2, 2, 2, 2, 1, 1, 1, 2, 2, 2, 2, 2, 2, 2, 2, 2, 3, 2] ++
    List.replicate 5 1 ++ List.replicate 4 (-1)⟩

def distance : NumberCoding where
  classes := 32
  maxAccuracy := 8
  default := ⟨5, List.replicate 6 1 ++ [2, 2, 2] ++ List.replicate 15 1 ++
    List.replicate 5 (-1)⟩

def length : NumberCoding where
  classes := 53
  maxAccuracy := 9
  default := ⟨6, [1, 4, 3] ++ List.replicate 6 2 ++ List.replicate 37 1 ++
    List.replicate 7 (-1)⟩

/-- Reads the table of a block: the default one, one for a single class, a transmitted one, or
again the last one of the frame. -/
def table? (coding : NumberCoding) (mode : Nat) (last? : Option StateTable) (bytes : Bytes) :
    Option (StateTable × Bytes) :=
  match mode with
  | 0 => some (StateTable.ofDistribution coding.default, bytes)
  | 1 =>
    match bytes with
    | [] => none
    | symbol :: rest =>
      if symbol.toNat < coding.classes then some (StateTable.constant symbol.toNat, rest) else none
  | 2 => do
    let (distribution, size) ←
      Distribution.read? bytes.toArray coding.maxAccuracy coding.classes
    return (StateTable.ofDistribution distribution, bytes.drop size)
  | _ => last?.map fun table => (table, bytes)

end NumberCoding

/-- The number of further bits and the smallest number of each class of literal counts from 16 on;
a class below is its number. -/
def literalClasses : Array (Nat × Nat) :=
  #[(1, 16), (1, 18), (1, 20), (1, 22), (2, 24), (2, 28), (3, 32), (3, 40), (4, 48), (6, 64),
    (7, 128), (8, 256), (9, 512), (10, 1024), (11, 2048), (12, 4096), (13, 8192), (14, 16384),
    (15, 32768), (16, 65536)]

/-- The number of further bits and the smallest length of each class of matches from 32 on; a class
below is three less than its length. -/
def matchClasses : Array (Nat × Nat) :=
  #[(1, 35), (1, 37), (1, 39), (1, 41), (2, 43), (2, 47), (3, 51), (3, 59), (4, 67), (4, 83),
    (5, 99), (7, 131), (8, 259), (9, 515), (10, 1027), (11, 2051), (12, 4099), (13, 8195),
    (14, 16387), (15, 32771), (16, 65539)]

/-- Reads `count` sequences from the bits below `position`, which must be used up in the end. The
cells are the current states. -/
def walkSequences? (tables : SequenceTables) (data : Array UInt8) :
    (count : Nat) → (literals distance length : Cell) → (position : Nat) → Option (List Sequence)
  | 0, _, _, _, _ => none
  | count + 1, literals, distance, length, position => do
    let (more, position) ← Bits.numberBelow? data distance.symbol position
    let distanceValue := (1 <<< distance.symbol) + more
    let (extra, base) :=
      if length.symbol < 32 then (0, length.symbol + 3)
      else matchClasses.getD (length.symbol - 32) (0, 0)
    let (more, position) ← Bits.numberBelow? data extra position
    let lengthValue := base + more
    let (extra, base) :=
      if literals.symbol < 16 then (0, literals.symbol)
      else literalClasses.getD (literals.symbol - 16) (0, 0)
    let (more, position) ← Bits.numberBelow? data extra position
    let sequence : Sequence := ⟨base + more, lengthValue, distanceValue⟩
    if count = 0 then
      if position = 0 then return [sequence] else none
    else
      let (literals, position) ← tables.literals.next? literals data position
      let (length, position) ← tables.length.next? length data position
      let (distance, position) ← tables.distance.next? distance data position
      let sequences ← walkSequences? tables data count literals distance length position
      return sequence :: sequences

/-- The number of sequences of a block, in one to three bytes. -/
def sequenceCount? (bytes : Bytes) : Option (Nat × Bytes) :=
  match bytes with
  | [] => none
  | first :: rest =>
    let n := first.toNat
    if n < 128 then some (n, rest)
    else if n < 255 then
      match rest with
      | [] => none
      | second :: rest => some ((n - 128) * 256 + second.toNat, rest)
    else
      match rest with
      | second :: third :: rest => some (second.toNat + third.toNat * 256 + 0x7F00, rest)
      | _ => none

/-- Reads the sequences that make up the rest of a block. `last?` is the tables of the last block of
the frame that had sequences. Returns the sequences, and the last tables now. -/
def readSequences? (last? : Option SequenceTables) (bytes : Bytes) :
    Option (List Sequence × Option SequenceTables) := do
  let (count, rest) ← sequenceCount? bytes
  if count = 0 then
    if rest = [] then return ([], last?) else none
  else
    let (modes, rest) ← Bytes.split? 1 rest
    let modes := Bytes.ofLittleEndian modes
    if modes % 4 ≠ 0 then none
    let (literals, rest) ← NumberCoding.literals.table? (modes / 64) (last?.map (·.literals)) rest
    let (distance, rest) ←
      NumberCoding.distance.table? (modes / 16 % 4) (last?.map (·.distance)) rest
    let (length, rest) ← NumberCoding.length.table? (modes / 4 % 4) (last?.map (·.length)) rest
    let tables : SequenceTables := ⟨literals, distance, length⟩
    let data := rest.toArray
    let (literals, position) ← literals.start? data (← Bits.markedEnd? data)
    let (distance, position) ← distance.start? data position
    let (length, position) ← length.start? data position
    return (← walkSequences? tables data count literals distance length position, some tables)

/-- The last three distances, the newest first. -/
structure Distances where
  first : Nat := 1
  second : Nat := 4
  third : Nat := 8
  deriving DecidableEq, Repr

/-- The distance of a match, and the last three distances after it. If no literals come before the
match, the references to earlier distances are shifted by one; the last is then one less than the
newest. -/
def Distances.resolve? (distances : Distances) (sequence : Sequence) : Option (Nat × Distances) :=
  let ⟨first, second, third⟩ := distances
  if 3 < sequence.distance then
    let distance := sequence.distance - 3
    some (distance, ⟨distance, first, second⟩)
  else
    match if sequence.literals = 0 then sequence.distance + 1 else sequence.distance with
    | 1 => some (first, distances)
    | 2 => some (second, ⟨second, first, third⟩)
    | 3 => some (third, ⟨third, first, second⟩)
    | _ => if first ≤ 1 then none else some (first - 1, ⟨first - 1, first, second⟩)

/-- Appends what the sequences stand for, and then the literals that are left. -/
def applySequences? (literals : Array UInt8) :
    (sequences : List Sequence) → (taken : Nat) → Distances → Array UInt8 →
    Option (Array UInt8 × Distances)
  | [], taken, distances, out => some (out ++ literals.extract taken literals.size, distances)
  | sequence :: sequences, taken, distances, out => do
    let reached := taken + sequence.literals
    if literals.size < reached then none
    let out := out ++ literals.extract taken reached
    let (distance, distances) ← distances.resolve? sequence
    if out.size < distance then none
    applySequences? literals sequences reached distances
      (History.copyMatch distance sequence.length out)

end PlaneArchive.Zstandard
