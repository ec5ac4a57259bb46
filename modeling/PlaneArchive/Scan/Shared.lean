import PlaneArchive.Scan.Machine

/-! # Scans that are shared

A scan can be shared while it is open: any number of calls add inputs to it, side by side with each
other, with the owner and with the workers. A call counts its path in one step and sends it in
another. Closing takes the scan away from everybody else, so it begins when no call is under way,
and no call begins after it.
-/
namespace PlaneArchive.Scan

structure SharedScan where
  state : State
  /-- The paths of the calls that are under way: they have been counted and not yet sent. -/
  calls : List Path
  deriving Repr

inductive SharedEvent where
  | count (path : Path)
  /-- The call with this index among those under way sends its path and returns. -/
  | send (index : Nat)
  | step (event : Event)
  deriving DecidableEq, Repr

/-- May inputs still be added? -/
def Owner.isOpen : Owner → Bool
  | .adding _ | .sending _ _ => true
  | .waiting | .stopping _ | .joiningExpanders | .joiningDecompressors | .closed => false

namespace SharedScan

def initial (setup : Setup) (inputs : List Path) : SharedScan := ⟨Scan.initial setup inputs, []⟩

def count? (scan : SharedScan) (path : Path) : Option SharedScan :=
  if scan.state.owner.isOpen then
    let state := { scan.state with pending := scan.state.pending + 1 }
    some ⟨state, scan.calls ++ [path]⟩
  else none

def send? (scan : SharedScan) (index : Nat) : Option SharedScan :=
  match scan.calls[index]? with
  | some path =>
    let state := { scan.state with jobs := scan.state.jobs ++ [.expand path] }
    some ⟨state, scan.calls.eraseIdx index⟩
  | none => none

/-- The owner and the workers go on as in a scan that is not shared, but for the beginning of
closing. -/
def step? (setup : Setup) (scan : SharedScan) (event : Event) : Option SharedScan :=
  match scan.state.next? setup event with
  | some state =>
    if state.owner = .waiting ∧ scan.calls ≠ [] then none else some { scan with state }
  | none => none

def next? (setup : Setup) (scan : SharedScan) : SharedEvent → Option SharedScan
  | .count path => scan.count? path
  | .send index => scan.send? index
  | .step event => scan.step? setup event

def run? (setup : Setup) (scan : SharedScan) (events : List SharedEvent) : Option SharedScan :=
  events.foldlM (next? setup) scan

end SharedScan
end PlaneArchive.Scan
