import PlaneArchive.Scan.Sequential
import PlaneArchive.Writer.Basic

/-! # From inputs to an archive

A single consumer takes the scanned records in the order of their arrival and writes them. When a
write fails it takes the remaining records without looking at them, so that the scan can come to
its end, and reports the failure.
-/
namespace PlaneArchive

structure Summary where
  records : Nat := 0
  /-- Content bytes, without padding. -/
  bytes : Nat := 0
  blocks : Nat := 0
  /-- Units of work that the scan dropped. -/
  skipped : Nat := 0
  deriving DecidableEq, Repr

structure Consumption (σ ι : Type) where
  /-- The totals, and what is left of the finished sink. -/
  result : Except ArchiveError (Summary × ι)
  lines : List String
  writer : Writer σ

namespace Pipeline

variable {σ ι : Type} [Sink σ ι]

/-- The line that is printed before the record with this number is written. -/
def progressLine (number : Nat) (record : FileRecord) : String :=
  s!"[{number}] {record.name} ({record.content.length})"

def count (summary : Summary) (record : FileRecord) : Summary :=
  { summary with
    records := summary.records + 1
    bytes := summary.bytes + record.content.length }

/-- Writes records up to the first that fails, and closes the writer if none does. -/
def consumeFrom (progress : Bool) (summary : Summary) (writer : Writer σ) :
    List FileRecord → Consumption σ ι
  | [] =>
    match writer.close with
    | (.ok inner, closed) =>
      ⟨.ok ({ summary with blocks := writer.blocksWritten + 1 }, inner), [], closed⟩
    | (.error e, closed) => ⟨.error e, [], closed⟩
  | record :: rest =>
    let line := if progress then [progressLine summary.records record] else []
    match writer.write record with
    | (.error e, failed) => ⟨.error e, line, failed⟩
    | (.ok (), writer) =>
      let later := consumeFrom progress (count summary record) writer rest
      { later with lines := line ++ later.lines }

def consume (progress : Bool) (writer : Writer σ) (records : List FileRecord) :
    Consumption σ ι :=
  consumeFrom progress {} writer records

/-- Writes the records of a scan in the order of their arrival, and reports what it dropped. -/
def ofScan (progress : Bool) (writer : Writer σ) (scanned : ScanOutcome) : Consumption σ ι :=
  let consumption := consume progress writer scanned.records
  { consumption with
    result := consumption.result.map fun (summary, inner) =>
      ({ summary with skipped := scanned.skipped }, inner) }

/-- Scans the inputs into a writer. A scan that cannot be set up leaves the writer alone. -/
def run (decoder : Gzip.MemberDecoder) (tree : FileTree) (inputs : List Path)
    (config : ScanConfig) (progress : Bool) (writer : Writer σ) : Consumption σ ι :=
  match config.validate with
  | .error e => ⟨.error e, [], writer⟩
  | .ok () => ofScan progress writer (Scan.run decoder tree inputs)

end Pipeline
end PlaneArchive
