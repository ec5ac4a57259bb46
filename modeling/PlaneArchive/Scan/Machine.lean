import PlaneArchive.Scan.Expansion

/-! # Scanning with two pools of workers

Expanders take paths from a queue of any length, list directories and read files. Decompressors
take gzip data from a bounded queue. Both hand records to consumers through an output queue, which
may be unbounded, bounded, or a direct hand-over. A counter of pending paths tells the owner when
the queue can be closed: it covers every path that is queued, that is being expanded, or that has
been counted and not yet sent. Queues are first-in first-out and workers do not fail.

Workers interleave effect by effect; a state and an event determine the next state.
-/
namespace PlaneArchive.Scan

structure Setup where
  decoder : Gzip.MemberDecoder
  tree : FileTree
  config : ScanConfig
  consumers : Nat

inductive Job where
  | expand (path : Path)
  | shutdown
  deriving DecidableEq, Repr

/-- One observable action of a worker. -/
inductive Effect where
  | emit (record : FileRecord)
  | pass (name : String) (content : Bytes)
  | count (path : Path)
  | send (path : Path)
  | skip
  | done
  deriving DecidableEq, Repr

def Effect.ofItem : Item → Effect
  | .record r => .emit r
  | .compressed name content => .pass name content

/-- What an expander does about a path: hand on items, count and send what it found, count a
failure, and only then take the path off the count. -/
def Effect.ofExpansion (expansion : Expansion) : List Effect :=
  expansion.items.map ofItem ++ expansion.found.map count
    ++ (if expansion.failed then [skip] else []) ++ [done]

/-- What a decompressor does about gzip data: one record, or one unit dropped. -/
def Effect.ofCompressed (decoder : Gzip.MemberDecoder) (name : String) (content : Bytes) :
    List Effect :=
  match (Item.compressed name content).deliver? decoder with
  | some r => [emit r]
  | none => [skip]

inductive Worker where
  | idle
  | busy (effects : List Effect)
  | exited
  deriving DecidableEq, Repr

inductive Owner where
  /-- Count the first of these inputs, or start to close if there is none. -/
  | adding (inputs : List Path)
  | sending (path : Path) (inputs : List Path)
  | waiting
  | stopping (count : Nat)
  | joiningExpanders
  | joiningDecompressors
  | closed
  deriving DecidableEq, Repr

structure State where
  owner : Owner
  pending : Nat
  jobs : List Job
  expanders : List Worker
  gzipQueue : List (String × Bytes)
  decompressors : List Worker
  output : List FileRecord
  /-- Records with the consumers that received them, in order of arrival. -/
  received : List (Nat × FileRecord)
  emitted : Nat
  skipped : Nat
  deriving Repr

def initial (setup : Setup) (inputs : List Path) : State where
  owner := .adding inputs
  pending := 0
  jobs := []
  expanders := List.replicate setup.config.expanders .idle
  gzipQueue := []
  decompressors := List.replicate setup.config.decompressors .idle
  output := []
  received := []
  emitted := 0
  skipped := 0

inductive WorkerId where
  | expander (index : Nat)
  | decompressor (index : Nat)
  deriving DecidableEq, Repr

inductive Event where
  | own
  | take (index : Nat)
  | inflate (index : Nat)
  /-- An idle decompressor finds its queue closed. -/
  | leave (index : Nat)
  /-- A busy worker carries out its next effect. -/
  | act (worker : WorkerId)
  | handOver (worker : WorkerId) (consumer : Nat)
  | receive (consumer : Nat)
  deriving DecidableEq, Repr

namespace State

def worker? (state : State) : WorkerId → Option Worker
  | .expander index => state.expanders[index]?
  | .decompressor index => state.decompressors[index]?

def setWorker (state : State) (id : WorkerId) (worker : Worker) : State :=
  match id with
  | .expander index => { state with expanders := state.expanders.set index worker }
  | .decompressor index => { state with decompressors := state.decompressors.set index worker }

/-- A worker with these effects left; it is idle when there are none. -/
def resume (state : State) (id : WorkerId) (effects : List Effect) : State :=
  state.setWorker id (if effects.isEmpty then .idle else .busy effects)

def expandersExited (state : State) : Bool := state.expanders.all (· == .exited)

def decompressorsExited (state : State) : Bool := state.decompressors.all (· == .exited)

def outputHasRoom (setup : Setup) (state : State) : Bool :=
  match setup.config.outputCapacity? with
  | none => true
  | some capacity => state.output.length < capacity

/-- Does the queue of the decompressors take more? It holds one item for each of them. -/
def gzipHasRoom (setup : Setup) (state : State) : Bool :=
  state.gzipQueue.length < setup.config.decompressors

/-- Carries out an effect, if nothing blocks it, and tells which effects take its place. -/
def perform? (setup : Setup) (state : State) : Effect → Option (State × List Effect)
  | .emit r =>
    if state.outputHasRoom setup then
      some ({ state with output := state.output ++ [r], emitted := state.emitted + 1 }, [])
    else none
  | .pass name content =>
    if state.gzipHasRoom setup then
      some ({ state with gzipQueue := state.gzipQueue ++ [(name, content)] }, [])
    else none
  | .count path => some ({ state with pending := state.pending + 1 }, [.send path])
  | .send path => some ({ state with jobs := state.jobs ++ [.expand path] }, [])
  | .skip => some ({ state with skipped := state.skipped + 1 }, [])
  | .done => some ({ state with pending := state.pending - 1 }, [])

/-- The owner adds the inputs one by one, waits for all work, sends one shutdown message for each
expander, and waits for both pools to exit. -/
def own? (state : State) : Option State :=
  match state.owner with
  | .adding [] => some { state with owner := .waiting }
  | .adding (path :: inputs) =>
    some { state with owner := .sending path inputs, pending := state.pending + 1 }
  | .sending path inputs =>
    some { state with owner := .adding inputs, jobs := state.jobs ++ [.expand path] }
  | .waiting =>
    if state.pending = 0 then
      some { state with owner := .stopping state.expanders.length }
    else none
  | .stopping 0 => some { state with owner := .joiningExpanders }
  | .stopping (count + 1) =>
    some { state with owner := .stopping count, jobs := state.jobs ++ [.shutdown] }
  | .joiningExpanders =>
    if state.expandersExited then some { state with owner := .joiningDecompressors } else none
  | .joiningDecompressors =>
    if state.decompressorsExited then some { state with owner := .closed } else none
  | .closed => none

def take? (setup : Setup) (state : State) (index : Nat) : Option State :=
  match state.worker? (.expander index), state.jobs with
  | some .idle, .expand path :: jobs =>
    let effects := Effect.ofExpansion (Expansion.ofPath setup.tree path)
    some ({ state with jobs }.resume (.expander index) effects)
  | some .idle, .shutdown :: jobs =>
    some ({ state with jobs }.setWorker (.expander index) .exited)
  | _, _ => none

def inflate? (setup : Setup) (state : State) (index : Nat) : Option State :=
  match state.worker? (.decompressor index), state.gzipQueue with
  | some .idle, (name, content) :: gzipQueue =>
    let effects := Effect.ofCompressed setup.decoder name content
    some ({ state with gzipQueue }.resume (.decompressor index) effects)
  | _, _ => none

/-- An idle decompressor exits once its queue is empty and no expander is left to fill it. -/
def leave? (state : State) (index : Nat) : Option State :=
  match state.worker? (.decompressor index), state.gzipQueue with
  | some .idle, [] =>
    if state.expandersExited then some (state.setWorker (.decompressor index) .exited) else none
  | _, _ => none

/-- A busy worker carries out its next effect. -/
def act? (setup : Setup) (state : State) (id : WorkerId) : Option State :=
  match state.worker? id with
  | some (.busy (effect :: effects)) =>
    (state.perform? setup effect).map fun (state, more) => state.resume id (more ++ effects)
  | _ => none

def handOver? (setup : Setup) (state : State) (id : WorkerId) (consumer : Nat) : Option State :=
  match state.worker? id with
  | some (.busy (.emit r :: effects)) =>
    if setup.config.outputCapacity? = some 0 ∧ consumer < setup.consumers then
      let received := state.received ++ [(consumer, r)]
      some ({ state with received, emitted := state.emitted + 1 }.resume id effects)
    else none
  | _ => none

def receive? (setup : Setup) (state : State) (consumer : Nat) : Option State :=
  match state.output with
  | r :: output =>
    if consumer < setup.consumers then
      some { state with output, received := state.received ++ [(consumer, r)] }
    else none
  | [] => none

def next? (setup : Setup) (state : State) : Event → Option State
  | .own => state.own?
  | .take index => state.take? setup index
  | .inflate index => state.inflate? setup index
  | .leave index => state.leave? index
  | .act id => state.act? setup id
  | .handOver id consumer => state.handOver? setup id consumer
  | .receive consumer => state.receive? setup consumer

def run? (setup : Setup) (state : State) (events : List Event) : Option State :=
  events.foldlM (next? setup) state

def isClosed (state : State) : Bool := state.owner == .closed

/-- Closing has returned and every record has been received. -/
def isDrained (state : State) : Bool := state.isClosed && state.output.isEmpty

/-- The outcome as the consumers and the owner see it, in order of arrival. -/
def outcome (state : State) : ScanOutcome := ⟨state.received.map (·.2), state.skipped⟩

end State

inductive Reachable (setup : Setup) (inputs : List Path) : State → Prop where
  | start : Reachable setup inputs (initial setup inputs)
  | step {state after : State} (event : Event) (before : Reachable setup inputs state)
      (h : state.next? setup event = some after) : Reachable setup inputs after

end PlaneArchive.Scan
