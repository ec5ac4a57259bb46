import PlaneArchive.Error
import PlaneArchive.Record

/-! # What a scan yields -/
namespace PlaneArchive

/-- Sizes of the two pools of workers and of the output queue. -/
structure ScanConfig where
  /-- Workers that look at paths, list directories and read files. -/
  expanders : Nat := 10
  decompressors : Nat := 5
  /-- Records that may wait for a consumer: `none` for any number, zero for a direct hand-over. -/
  outputCapacity? : Option Nat := none
  deriving DecidableEq, Repr

def ScanConfig.validate (config : ScanConfig) : Except ArchiveError Unit :=
  if config.expanders = 0 ∨ config.decompressors = 0 then .error (.invalidConfig .noScanWorkers)
  else .ok ()

/-- The records of a scan, and how many units of work were dropped because of a failure. -/
structure ScanOutcome where
  records : List FileRecord := []
  skipped : Nat := 0
  deriving DecidableEq, Repr

namespace ScanOutcome

def append (first second : ScanOutcome) : ScanOutcome :=
  ⟨first.records ++ second.records, first.skipped + second.skipped⟩

instance : Append ScanOutcome := ⟨append⟩

theorem append_assoc (first second third : ScanOutcome) :
    first ++ second ++ third = first ++ (second ++ third) := by
  change append (append first second) third = append first (append second third)
  rw [append, append, append, append, List.append_assoc, Nat.add_assoc]

theorem empty_append (outcome : ScanOutcome) : {} ++ outcome = outcome := by
  change append {} outcome = outcome
  rw [append, List.nil_append, Nat.zero_add]

theorem append_empty (outcome : ScanOutcome) : outcome ++ {} = outcome := by
  change append outcome {} = outcome
  rw [append, List.append_nil, Nat.add_zero]

/-- The records that some number of consumers receive together: all, if there is a consumer. -/
def received (outcome : ScanOutcome) (consumers : Nat) : List FileRecord :=
  if consumers = 0 then [] else outcome.records

end ScanOutcome
end PlaneArchive
