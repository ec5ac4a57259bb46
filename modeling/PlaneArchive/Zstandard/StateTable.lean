import PlaneArchive.Bits

/-! # Finite state entropy coding

A stream of symbols is coded by a walk through a table of states. A state stands for a symbol, and
tells from how many further bits, and from which base on, the next state is found. The table is
laid out from a distribution: the number of states that each symbol gets.
-/
namespace PlaneArchive.Zstandard

/-- How many of the `2 ^ accuracy` states each symbol gets. A count of `-1` is a single state that
is reached with all bits anew. -/
structure Distribution where
  accuracy : Nat
  counts : List Int
  deriving DecidableEq, Repr

namespace Distribution

/-- The number of symbols that are absent, from flags of two bits. A flag of three announces
another flag. -/
def absentRun? (data : Array UInt8) : (fuel position : Nat) → Option (Nat × Nat)
  | 0, _ => none
  | fuel + 1, position => do
    let flag ← Bits.number? data 2 position
    if flag < 3 then return (flag, position + 2)
    let (more, position) ← absentRun? data fuel (position + 2)
    return (3 + more, position)

/-- The number in the bits from `position` on, which is at most `limit`. The small numbers take one
bit less, as far as the bits would distinguish more numbers than there are. -/
def bounded? (data : Array UInt8) (limit position : Nat) : Option (Nat × Nat) := do
  let width := Nat.log2 limit
  let spare := (1 <<< (width + 1)) - 1 - limit
  let low ← Bits.number? data width position
  if low < spare then return (low, position + width)
  let high ← Bits.bit? data (position + width)
  return (if high = 1 then low + (1 <<< width) - spare else low, position + width + 1)

/-- Reads counts until no state is left to be given away, for at most `room` symbols. -/
def counts? (data : Array UInt8) : (fuel room left position : Nat) → Option (List Int × Nat)
  | 0, _, _, _ => none
  | fuel + 1, room, left, position => do
    if left = 0 then return ([], position)
    if room = 0 then none
    let (n, position) ← bounded? data (left + 1) position
    if n = 0 then
      let (counts, position) ← counts? data fuel (room - 1) (left - 1) position
      return (-1 :: counts, position)
    else if n = 1 then
      let (absent, position) ← absentRun? data (8 * data.size) position
      if room ≤ absent then none
      let (counts, position) ← counts? data fuel (room - 1 - absent) left position
      return (List.replicate (absent + 1) 0 ++ counts, position)
    else
      let (counts, position) ← counts? data fuel (room - 1) (left - (n - 1)) position
      return (((n : Int) - 1) :: counts, position)

/-- Reads a distribution over `symbols` symbols at the most, from the start of the data, and the
number of bytes that it takes. -/
def read? (data : Array UInt8) (maxAccuracy symbols : Nat) : Option (Distribution × Nat) := do
  let accuracy := 5 + (← Bits.number? data 4 0)
  if maxAccuracy < accuracy then none
  let (counts, position) ← counts? data (symbols + 1) symbols (1 <<< accuracy) 4
  return (⟨accuracy, counts⟩, (position + 7) / 8)

end Distribution

/-- A state: its symbol, and how the next state is found. -/
structure Cell where
  symbol : Nat
  /-- The number of bits that are read for the next state. -/
  width : Nat
  base : Nat
  deriving DecidableEq, Repr

structure StateTable where
  accuracy : Nat
  cells : Array Cell
  deriving DecidableEq, Repr

namespace StateTable

/-- The table in which every state stands for one symbol. -/
def constant (symbol : Nat) : StateTable := ⟨0, #[⟨symbol, 0, 0⟩]⟩

/-- The symbol of each state. Symbols with a count of `-1` take the last states, backwards. The
others are spread over the states before these, in steps that reach each state once. -/
def symbolsOf (distribution : Distribution) : Array Nat :=
  let size := 1 <<< distribution.accuracy
  let counted := distribution.counts.zipIdx
  let rare := (counted.filter fun (count, _) => count = -1).map (·.2)
  let common := counted.flatMap fun (count, symbol) => List.replicate count.toNat symbol
  let step := size / 2 + size / 8 + 3
  let order := ((List.range size).map fun i => i * step % size).filter (· < size - rare.length)
  let places := order.zip common ++ rare.zipIdx.map fun (symbol, i) => (size - 1 - i, symbol)
  places.foldl (fun symbols (place, symbol) => symbols.setIfInBounds place symbol)
    (Array.replicate size 0)

/-- Gives the states of each symbol, in order, consecutive parts of all states to go on to. `next`
counts, for each symbol, from the number of its states upwards. -/
def cellsOf (size accuracy : Nat) : (next : Array Nat) → (symbols : List Nat) → List Cell
  | _, [] => []
  | next, symbol :: symbols =>
    let n := next.getD symbol 1
    let width := accuracy - Nat.log2 n
    ⟨symbol, width, (n <<< width) - size⟩ ::
      cellsOf size accuracy (next.setIfInBounds symbol (n + 1)) symbols

def ofDistribution (distribution : Distribution) : StateTable :=
  let start := distribution.counts.map fun count => if count = -1 then 1 else count.toNat
  let cells := cellsOf (1 <<< distribution.accuracy) distribution.accuracy start.toArray
    (symbolsOf distribution).toList
  ⟨distribution.accuracy, cells.toArray⟩

def start? (table : StateTable) (data : Array UInt8) (position : Nat) : Option (Cell × Nat) := do
  let (n, position) ← Bits.numberBelow? data table.accuracy position
  return (← table.cells[n]?, position)

/-- The state after `cell`, from the bits below `position`. -/
def next? (table : StateTable) (cell : Cell) (data : Array UInt8) (position : Nat) :
    Option (Cell × Nat) := do
  let (n, position) ← Bits.numberBelow? data cell.width position
  return (← table.cells[cell.base + n]?, position)

end StateTable
end PlaneArchive.Zstandard
