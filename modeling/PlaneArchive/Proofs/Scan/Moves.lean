import Mathlib.Data.Nat.Notation
import PlaneArchive.Scan.Machine

/-! # What one step of a scan can do

Every step of the machine is one of the moves listed here, together with the reason why it was
possible. Nothing else is needed of the machine to show what it preserves. Where it matters which
event a step belongs to, the same is told event by event.
-/
namespace PlaneArchive.Scan

/-- What carrying out an effect does to the state, and which effects take its place. -/
inductive Performs (setup : Setup) (state : State) : Effect → State → List Effect → Prop where
  | emit {record : FileRecord} (hroom : state.outputHasRoom setup = true) :
      Performs setup state (.emit record)
        { state with output := state.output ++ [record], emitted := state.emitted + 1 } []
  | pass {name : String} {content : Bytes} (hroom : state.gzipHasRoom setup = true) :
      Performs setup state (.pass name content)
        { state with gzipQueue := state.gzipQueue ++ [(name, content)] } []
  | count {path : Path} :
      Performs setup state (.count path) { state with pending := state.pending + 1 } [.send path]
  | send {path : Path} :
      Performs setup state (.send path) { state with jobs := state.jobs ++ [.expand path] } []
  | skip : Performs setup state .skip { state with skipped := state.skipped + 1 } []
  | done : Performs setup state .done { state with pending := state.pending - 1 } []

/-- What a state turns into in one step. -/
inductive Move (setup : Setup) (state : State) : State → Prop where
  | countInput {path : Path} {inputs : List Path} (ho : state.owner = .adding (path :: inputs)) :
      Move setup state
        { state with owner := .sending path inputs, pending := state.pending + 1 }
  | sendInput {path : Path} {inputs : List Path} (ho : state.owner = .sending path inputs) :
      Move setup state { state with owner := .adding inputs, jobs := state.jobs ++ [.expand path] }
  | wait (ho : state.owner = .adding []) : Move setup state { state with owner := .waiting }
  | stop (ho : state.owner = .waiting) (hp : state.pending = 0) :
      Move setup state { state with owner := .stopping state.expanders.length }
  | sendShutdown {count : ℕ} (ho : state.owner = .stopping (count + 1)) :
      Move setup state { state with owner := .stopping count, jobs := state.jobs ++ [.shutdown] }
  | join (ho : state.owner = .stopping 0) :
      Move setup state { state with owner := .joiningExpanders }
  | joinExpanders (ho : state.owner = .joiningExpanders) (he : state.expandersExited = true) :
      Move setup state { state with owner := .joiningDecompressors }
  | joinDecompressors (ho : state.owner = .joiningDecompressors)
      (hd : state.decompressorsExited = true) : Move setup state { state with owner := .closed }
  | expand {index : ℕ} {path : Path} {jobs : List Job}
      (hw : state.worker? (.expander index) = some .idle)
      (hj : state.jobs = .expand path :: jobs) :
      Move setup state ({ state with jobs }.resume (.expander index)
        (Effect.ofExpansion (Expansion.ofPath setup.tree path)))
  | retire {index : ℕ} {jobs : List Job} (hw : state.worker? (.expander index) = some .idle)
      (hj : state.jobs = .shutdown :: jobs) :
      Move setup state ({ state with jobs }.setWorker (.expander index) .exited)
  | inflate {index : ℕ} {name : String} {content : Bytes} {gzipQueue : List (String × Bytes)}
      (hw : state.worker? (.decompressor index) = some .idle)
      (hq : state.gzipQueue = (name, content) :: gzipQueue) :
      Move setup state ({ state with gzipQueue }.resume (.decompressor index)
        (Effect.ofCompressed setup.decoder name content))
  | leave {index : ℕ} (hw : state.worker? (.decompressor index) = some .idle)
      (hq : state.gzipQueue = []) (he : state.expandersExited = true) :
      Move setup state (state.setWorker (.decompressor index) .exited)
  | act {id : WorkerId} {effect : Effect} {effects more : List Effect} {after : State}
      (hw : state.worker? id = some (.busy (effect :: effects)))
      (hp : Performs setup state effect after more) :
      Move setup state (after.resume id (more ++ effects))
  | handOver {id : WorkerId} {record : FileRecord} {effects : List Effect} {consumer : ℕ}
      (hw : state.worker? id = some (.busy (.emit record :: effects)))
      (hc : consumer < setup.consumers) :
      Move setup state
        ({ state with
            received := state.received ++ [(consumer, record)]
            emitted := state.emitted + 1 }.resume id effects)
  | receive {record : FileRecord} {output : List FileRecord} {consumer : ℕ}
      (ho : state.output = record :: output) (hc : consumer < setup.consumers) :
      Move setup state
        { state with output, received := state.received ++ [(consumer, record)] }

/-- What a state turns into at an event, and why the event was possible. -/
inductive Occurs (setup : Setup) (state : State) : Event → State → Prop where
  | own {after : State} (h : state.own? = some after) : Occurs setup state .own after
  | expand {index : ℕ} {path : Path} {jobs : List Job}
      (hw : state.worker? (.expander index) = some .idle)
      (hj : state.jobs = .expand path :: jobs) :
      Occurs setup state (.take index) ({ state with jobs }.resume (.expander index)
        (Effect.ofExpansion (Expansion.ofPath setup.tree path)))
  | retire {index : ℕ} {jobs : List Job} (hw : state.worker? (.expander index) = some .idle)
      (hj : state.jobs = .shutdown :: jobs) :
      Occurs setup state (.take index) ({ state with jobs }.setWorker (.expander index) .exited)
  | inflate {index : ℕ} {name : String} {content : Bytes} {gzipQueue : List (String × Bytes)}
      (hw : state.worker? (.decompressor index) = some .idle)
      (hq : state.gzipQueue = (name, content) :: gzipQueue) :
      Occurs setup state (.inflate index) ({ state with gzipQueue }.resume (.decompressor index)
        (Effect.ofCompressed setup.decoder name content))
  | leave {index : ℕ} (hw : state.worker? (.decompressor index) = some .idle)
      (hq : state.gzipQueue = []) (he : state.expandersExited = true) :
      Occurs setup state (.leave index) (state.setWorker (.decompressor index) .exited)
  | act {id : WorkerId} {effect : Effect} {effects more : List Effect} {mid : State}
      (hw : state.worker? id = some (.busy (effect :: effects)))
      (hp : Performs setup state effect mid more) :
      Occurs setup state (.act id) (mid.resume id (more ++ effects))
  | handOver {id : WorkerId} {record : FileRecord} {effects : List Effect} {consumer : ℕ}
      (hw : state.worker? id = some (.busy (.emit record :: effects)))
      (hdirect : setup.config.outputCapacity? = some 0) (hc : consumer < setup.consumers) :
      Occurs setup state (.handOver id consumer)
        ({ state with
            received := state.received ++ [(consumer, record)]
            emitted := state.emitted + 1 }.resume id effects)
  | receive {record : FileRecord} {output : List FileRecord} {consumer : ℕ}
      (ho : state.output = record :: output) (hc : consumer < setup.consumers) :
      Occurs setup state (.receive consumer)
        { state with output, received := state.received ++ [(consumer, record)] }

section Frame

variable (state : State) (id : WorkerId) (worker : Worker) (effects : List Effect)

@[simp] theorem State.owner_setWorker : (state.setWorker id worker).owner = state.owner := by
  cases id <;> rfl

@[simp] theorem State.pending_setWorker : (state.setWorker id worker).pending = state.pending := by
  cases id <;> rfl

@[simp] theorem State.jobs_setWorker : (state.setWorker id worker).jobs = state.jobs := by
  cases id <;> rfl

@[simp] theorem State.gzipQueue_setWorker :
    (state.setWorker id worker).gzipQueue = state.gzipQueue := by
  cases id <;> rfl

@[simp] theorem State.owner_resume : (state.resume id effects).owner = state.owner :=
  state.owner_setWorker id _

@[simp] theorem State.pending_resume : (state.resume id effects).pending = state.pending :=
  state.pending_setWorker id _

@[simp] theorem State.jobs_resume : (state.resume id effects).jobs = state.jobs :=
  state.jobs_setWorker id _

@[simp] theorem State.gzipQueue_resume : (state.resume id effects).gzipQueue = state.gzipQueue :=
  state.gzipQueue_setWorker id _

end Frame

variable {setup : Setup} {state after : State}

theorem performs_of_perform? {effect : Effect} {more : List Effect}
    (h : state.perform? setup effect = some (after, more)) :
    Performs setup state effect after more := by
  cases effect with
  | emit record =>
    simp only [State.perform?] at h
    split at h
    · next hroom =>
      cases h
      exact .emit hroom
    · cases h
  | pass name content =>
    simp only [State.perform?] at h
    split at h
    · next hroom =>
      cases h
      exact .pass hroom
    · cases h
  | count path =>
    cases h
    exact .count
  | send path =>
    cases h
    exact .send
  | skip =>
    cases h
    exact .skip
  | done =>
    cases h
    exact .done

theorem Performs.frame {effect : Effect} {more : List Effect}
    (h : Performs setup state effect after more) :
    after.owner = state.owner ∧ after.expanders = state.expanders ∧
      after.decompressors = state.decompressors ∧ after.received = state.received := by
  cases h <;> exact ⟨rfl, rfl, rfl, rfl⟩

theorem move_of_own? (h : state.own? = some after) : Move setup state after := by
  unfold State.own? at h
  split at h
  · next ho =>
    cases h
    exact .wait ho
  · next path inputs ho =>
    cases h
    exact .countInput ho
  · next path inputs ho =>
    cases h
    exact .sendInput ho
  · next ho =>
    split at h
    · next hp =>
      cases h
      exact .stop ho hp
    · cases h
  · next ho =>
    cases h
    exact .join ho
  · next count ho =>
    cases h
    exact .sendShutdown ho
  · next ho =>
    split at h
    · next he =>
      cases h
      exact .joinExpanders ho he
    · cases h
  · next ho =>
    split at h
    · next hd =>
      cases h
      exact .joinDecompressors ho hd
    · cases h
  · cases h

/-- The owner takes nothing off the path queue or the count. -/
theorem grows_of_own? (h : state.own? = some after) :
    state.jobs <+: after.jobs ∧ state.pending ≤ after.pending := by
  unfold State.own? at h
  grind [List.prefix_append]

theorem occurs_of_next? {event : Event} (h : state.next? setup event = some after) :
    Occurs setup state event after := by
  cases event with
  | own => exact .own h
  | take index =>
    simp only [State.next?, State.take?] at h
    split at h
    · next hw hj =>
      cases h
      exact .expand hw hj
    · next hw hj =>
      cases h
      exact .retire hw hj
    · cases h
  | inflate index =>
    simp only [State.next?, State.inflate?] at h
    split at h
    · next hw hq =>
      cases h
      exact .inflate hw hq
    · cases h
  | leave index =>
    simp only [State.next?, State.leave?] at h
    split at h
    · next hw hq =>
      split at h
      · next he =>
        cases h
        exact .leave hw hq he
      · cases h
    · cases h
  | act id =>
    simp only [State.next?, State.act?] at h
    split at h
    · next effect effects hw =>
      obtain ⟨⟨mid, more⟩, hp, hafter⟩ := Option.map_eq_some_iff.mp h
      cases hafter
      exact .act hw (performs_of_perform? hp)
    · cases h
  | handOver id consumer =>
    simp only [State.next?, State.handOver?] at h
    split at h
    · next record effects hw =>
      split at h
      · next hc =>
        cases h
        exact .handOver hw hc.1 hc.2
      · cases h
    · cases h
  | receive consumer =>
    simp only [State.next?, State.receive?] at h
    split at h
    · next record output ho =>
      split at h
      · next hc =>
        cases h
        exact .receive ho hc
      · cases h
    · cases h

theorem move_of_next? {event : Event} (h : state.next? setup event = some after) :
    Move setup state after := by
  cases occurs_of_next? h with
  | own h => exact move_of_own? h
  | expand hw hj => exact .expand hw hj
  | retire hw hj => exact .retire hw hj
  | inflate hw hq => exact .inflate hw hq
  | leave hw hq he => exact .leave hw hq he
  | act hw hp => exact .act hw hp
  | handOver hw _ hc => exact .handOver hw hc
  | receive ho hc => exact .receive ho hc

theorem run?_cons_eq_some_iff {event : Event} {events : List Event} :
    state.run? setup (event :: events) = some after ↔
      ∃ next, state.next? setup event = some next ∧ next.run? setup events = some after := by
  rw [State.run?, List.foldlM_cons]
  exact Option.bind_eq_some_iff

theorem isClosed_iff : state.isClosed = true ↔ state.owner = .closed := beq_iff_eq

theorem isDrained_iff : state.isDrained = true ↔ state.owner = .closed ∧ state.output = [] := by
  rw [State.isDrained, Bool.and_eq_true_iff, isClosed_iff, List.isEmpty_iff]

end PlaneArchive.Scan
