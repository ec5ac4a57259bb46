import PlaneArchive.Pipeline
import PlaneArchive.Scan.Machine

/-! # Scanning and writing side by side

The workers of a scan and its single consumer interleave. The consumer takes one record at a time,
and none while it writes. Its stream ends once nothing waits for it and every worker that could
hand over a record has exited. The caller closes the scan, waits for the consumer, and adds what
the scan has dropped to the totals.
-/
namespace PlaneArchive.Pipeline

inductive Stage (ι : Type) where
  | receiving
  | writing (record : FileRecord)
  /-- A write has failed. Records are still taken, and not looked at. -/
  | draining (failure : ArchiveError)
  | finished (result : Except ArchiveError (Summary × ι))

structure Consumer (σ ι : Type) where
  writer : Writer σ
  stage : Stage ι := .receiving
  summary : Summary := {}
  lines : List String := []

namespace Consumer

variable {σ ι : Type} [Sink σ ι]

def accept? (consumer : Consumer σ ι) (record : FileRecord) : Option (Consumer σ ι) :=
  match consumer.stage with
  | .receiving => some { consumer with stage := .writing record }
  | .draining _ => some consumer
  | .writing _ | .finished _ => none

/-- Prints the line of the record and writes it. -/
def write? (progress : Bool) (consumer : Consumer σ ι) : Option (Consumer σ ι) :=
  match consumer.stage with
  | .writing record =>
    let line := if progress then [progressLine consumer.summary.records record] else []
    let (outcome, writer) := consumer.writer.write record
    some
      { writer
        stage :=
          match outcome with
          | .ok () => .receiving
          | .error e => .draining e
        summary := count consumer.summary record
        lines := consumer.lines ++ line }
  | .receiving | .draining _ | .finished _ => none

/-- What the consumer does at the end of its stream. -/
def finish? (consumer : Consumer σ ι) : Option (Consumer σ ι) :=
  match consumer.stage with
  | .receiving =>
    let summary := { consumer.summary with blocks := consumer.writer.blocksWritten + 1 }
    let (outcome, writer) := consumer.writer.close
    some { consumer with writer, stage := .finished (outcome.map fun inner => (summary, inner)) }
  | .draining e => some { consumer with stage := .finished (.error e) }
  | .writing _ | .finished _ => none

end Consumer

structure Setup where
  decoder : Gzip.MemberDecoder
  tree : FileTree
  config : ScanConfig
  progress : Bool

/-- The scan that feeds the consumer. -/
def Setup.scan (setup : Setup) : Scan.Setup where
  decoder := setup.decoder
  tree := setup.tree
  config := setup.config
  consumers := 1

structure State (σ ι : Type) where
  scan : Scan.State
  consumer : Consumer σ ι
  /-- What the caller returns, once it does. -/
  returned? : Option (Except ArchiveError (Summary × ι)) := none

def initial {σ ι : Type} (setup : Setup) (inputs : List Path) (writer : Writer σ) :
    State σ ι where
  scan := Scan.initial setup.scan inputs
  consumer := { writer }

inductive Event where
  /-- A step of the scan; if it hands over a record, the consumer takes it. -/
  | scan (event : Scan.Event)
  | write
  | finish
  /-- The caller, done with closing, is told the result of the consumer. -/
  | join
  deriving DecidableEq, Repr

namespace State

variable {σ ι : Type} [Sink σ ι]

/-- The consumer takes the record that has just been received, if there is one. -/
def follow? (state : State σ ι) (scan : Scan.State) : Option (State σ ι) :=
  match scan.received[state.scan.received.length]? with
  | none => some { state with scan }
  | some (_, record) =>
    (state.consumer.accept? record).map fun consumer => { state with scan, consumer }

def streamEnded (state : State σ ι) : Bool :=
  state.scan.expandersExited && state.scan.decompressorsExited && state.scan.output.isEmpty

def join? (state : State σ ι) : Option (State σ ι) :=
  match state.returned?, state.scan.owner, state.consumer.stage with
  | none, .closed, .finished result =>
    let returned := result.map fun (summary, inner) =>
      ({ summary with skipped := state.scan.skipped }, inner)
    some { state with returned? := some returned }
  | _, _, _ => none

def next? (setup : Setup) (state : State σ ι) : Event → Option (State σ ι)
  | .scan event => (state.scan.next? setup.scan event).bind state.follow?
  | .write =>
    (state.consumer.write? setup.progress).map fun consumer => { state with consumer }
  | .finish =>
    if state.streamEnded then
      state.consumer.finish?.map fun consumer => { state with consumer }
    else none
  | .join => state.join?

def run? (setup : Setup) (state : State σ ι) (events : List Event) : Option (State σ ι) :=
  events.foldlM (next? setup) state

end State

inductive Reachable {σ ι : Type} [Sink σ ι] (setup : Setup) (inputs : List Path)
    (writer : Writer σ) : State σ ι → Prop where
  | start : Reachable setup inputs writer (initial setup inputs writer)
  | step {state after : State σ ι} (event : Event) (before : Reachable setup inputs writer state)
      (h : state.next? setup event = some after) : Reachable setup inputs writer after

end PlaneArchive.Pipeline
