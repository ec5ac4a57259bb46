import PlaneArchive.Add
import PlaneArchive.CommandLine.Usage
import PlaneArchive.Text.Digits

/-! # The `add` command

The command with the value of every option, and the run that it asks for.
-/
namespace PlaneArchive.CommandLine

structure AddCommand where
  archive : Path
  inputs : List Path
  structSize : UInt32 := 8356
  append : Bool := false
  plain : Bool := false
  level : Int32 := 3
  zstdThreads : UInt32 := 0
  blockSizeMib : UInt64 := 512
  scanWorkers : UInt64 := 10
  gunzipWorkers : UInt64 := 5
  /-- Zero means one worker for each processor. -/
  transposeWorkers : UInt64 := 0
  tileSize : UInt64 := 256
  quiet : Bool := false
  deriving DecidableEq, Repr

namespace AddCommand

/-- A number of mebibytes as a number of bytes, as far as 64 bits go. -/
def mebibytes (count : UInt64) : Nat := min (count.toNat * (1024 * 1024)) (UInt64.size - 1)

/-- The run that a command asks for, on a machine with `processors` processors. -/
def options (processors : Nat) (command : AddCommand) : AddOptions where
  scan := {
    expanders := command.scanWorkers.toNat
    decompressors := command.gunzipWorkers.toNat
    outputCapacity? := some command.scanWorkers.toNat }
  writer := {
    pageSize := command.structSize
    blockThreshold := mebibytes command.blockSizeMib
    layout := if command.plain then .plain else .transposed
    transpose := {
      tileSize := command.tileSize.toNat
      workers :=
        if command.transposeWorkers = 0 then processors else command.transposeWorkers.toNat }
    compressionLevel := command.level
    compressionThreads := command.zstdThreads }
  mode := if command.append then .append else .truncate
  progress := !command.quiet

end AddCommand

/-- Text as an unsigned number of 32 bits, read as a number of either sign first. -/
def word32? (text : String) : Option UInt32 :=
  (Digits.signed? 10 text.toList).bind fun n =>
    if 0 ≤ n ∧ n < UInt32.size then some (UInt32.ofNat n.toNat) else none

def signed32? (text : String) : Option Int32 :=
  (Digits.signed? 10 text.toList).bind fun n =>
    if Int32.minValue.toInt ≤ n ∧ n ≤ Int32.maxValue.toInt then some (Int32.ofInt n) else none

def word64? (text : String) : Option UInt64 :=
  (Digits.unsigned? 10 text.toList).bind fun n =>
    if n < UInt64.size then some (UInt64.ofNat n) else none

namespace AddCommand

/-- The command with the value of one option replaced, if the text is a value of that option. -/
def set? (command : AddCommand) (opt : Opt) (text : String) : Option AddCommand :=
  match opt with
  | .structSize => (word32? text).map fun n => { command with structSize := n }
  | .level => (signed32? text).map fun n => { command with level := n }
  | .zstdThreads => (word32? text).map fun n => { command with zstdThreads := n }
  | .blockSizeMib => (word64? text).map fun n => { command with blockSizeMib := n }
  | .scanWorkers => (word64? text).map fun n => { command with scanWorkers := n }
  | .gunzipWorkers => (word64? text).map fun n => { command with gunzipWorkers := n }
  | .transposeWorkers => (word64? text).map fun n => { command with transposeWorkers := n }
  | .tileSize => (word64? text).map fun n => { command with tileSize := n }
  | .append | .plain | .quiet | .help => none

def raise (command : AddCommand) (opt : Opt) : AddCommand :=
  match opt with
  | .append => { command with append := true }
  | .plain => { command with plain := true }
  | .quiet => { command with quiet := true }
  | _ => command

end AddCommand
end PlaneArchive.CommandLine
