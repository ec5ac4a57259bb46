import PlaneArchive.Proofs.Scan.ScheduleIndependence

/-! # What each worker does in a run

Expanders take paths and decompressors take gzip data. Seen on its own, each worker carries out what
is to be done about one task after another; nothing is left out or repeated, however the workers
interleave. The gzip data that expanders pass on is taken in the same order, and what comes out of
the scan is what its workers have emitted and skipped.
-/
namespace PlaneArchive.Scan

inductive Task where
  | expand (path : Path)
  | decompress (name : String) (content : Bytes)
  deriving DecidableEq, Repr

namespace Effect

/-- All that an effect comes to: a path that has been counted is sent next. -/
def whole : Effect → List Effect
  | count path => [count path, send path]
  | effect => [effect]

def passed? : Effect → Option (String × Bytes)
  | pass name content => some (name, content)
  | _ => none

/-- What an effect adds to what comes out of the scan. -/
def tally : Effect → Tally
  | emit record => ({record}, 0)
  | skip => (0, 1)
  | _ => 0

end Effect

namespace Task

def effects (setup : Setup) : Task → List Effect
  | expand path => Effect.ofExpansion (Expansion.ofPath setup.tree path)
  | decompress name content => Effect.ofCompressed setup.decoder name content

/-- All that a worker carries out about a task, in order. -/
def plan (setup : Setup) (task : Task) : List Effect :=
  (task.effects setup).flatMap Effect.whole

def gzip? : Task → Option (String × Bytes)
  | decompress name content => some (name, content)
  | expand _ => none

end Task

namespace State

/-- The task that a worker takes at an event, if one does. -/
def begun? (state : State) : Event → Option (WorkerId × Task)
  | .take index =>
    match state.jobs with
    | .expand path :: _ => some (.expander index, .expand path)
    | _ => none
  | .inflate index =>
    match state.gzipQueue with
    | (name, content) :: _ => some (.decompressor index, .decompress name content)
    | [] => none
  | _ => none

/-- The effect that a worker carries out at an event, if one does. -/
def carried? (state : State) : Event → Option (WorkerId × Effect)
  | .act id | .handOver id _ =>
    match state.worker? id with
    | some (.busy (effect :: _)) => some (id, effect)
    | _ => none
  | _ => none

/-- What is seen of the events of a run, in their order. -/
def trace {α : Type} (setup : Setup) (see : State → Event → Option α) (state : State) :
    List Event → List α
  | [] => []
  | event :: events =>
    (see state event).toList ++
      match state.next? setup event with
      | some after => after.trace setup see events
      | none => []

/-- The effects that a worker has before it. -/
def left (state : State) (id : WorkerId) : List Effect :=
  match state.worker? id with
  | some worker => worker.effects
  | none => []

end State

/-- What concerns one worker. -/
def ofWorker {α : Type} (id : WorkerId) (history : List (WorkerId × α)) : List α :=
  (history.filter fun entry => entry.1 = id).map (·.2)

variable {setup : Setup} {inputs : List Path} {state after : State} {event : Event}
  {events : List Event}

section Trace

variable {α β γ : Type}

theorem ofWorker_flatMap (id : WorkerId) (history : List (WorkerId × α)) (f : α → List β) :
    (ofWorker id history).flatMap f =
      history.flatMap fun entry => if entry.1 = id then f entry.2 else [] := by
  induction history with
  | nil => rfl
  | cons entry history ih =>
    rw [List.flatMap_cons, ← ih, ofWorker, List.filter_cons]
    by_cases h : entry.1 = id
    · simp [h, ofWorker]
    · simp [h, ofWorker]

theorem mem_ofWorker_iff {id : WorkerId} {history : List (WorkerId × α)} {x : α} :
    x ∈ ofWorker id history ↔ (id, x) ∈ history := by
  rw [ofWorker, List.mem_map]
  constructor
  · rintro ⟨entry, hentry, rfl⟩
    obtain ⟨hmem, hid⟩ := List.mem_filter.mp hentry
    obtain rfl := of_decide_eq_true hid
    exact hmem
  · intro hmem
    exact ⟨(id, x), List.mem_filter.mpr ⟨hmem, decide_eq_true rfl⟩, rfl⟩

/-- Whatever is seen in a run is seen at one of its events. -/
theorem exists_of_mem_trace {see : State → Event → Option α} {x : α}
    (h : x ∈ state.trace setup see events) : ∃ between event, see between event = some x := by
  induction events generalizing state with
  | nil => cases h
  | cons event events ih =>
    rcases List.mem_append.mp h with hfirst | hlater
    · exact ⟨state, event, Option.mem_toList.mp hfirst⟩
    · split at hlater
      · exact ih hlater
      · cases hlater

/-- If every step moves something from a stock to what is seen of one kind, and something that is
seen of another kind to the stock, then so does a run. -/
theorem trace_balance (see : State → Event → Option α) (bring : State → Event → Option β)
    (f : α → List γ) (g : β → List γ) (stock : State → List γ)
    (hstep : ∀ {state after : State} {event : Event}, state.next? setup event = some after →
      (see state event).toList.flatMap f ++ stock after =
        stock state ++ (bring state event).toList.flatMap g)
    (hrun : state.run? setup events = some after) :
    (state.trace setup see events).flatMap f ++ stock after =
      stock state ++ (state.trace setup bring events).flatMap g := by
  induction events generalizing state with
  | nil =>
    cases hrun
    simp [State.trace]
  | cons event events ih =>
    obtain ⟨next, hnext, hrest⟩ := run?_cons_eq_some_iff.mp hrun
    have hfirst := hstep hnext
    have hlater := ih hrest
    simp only [State.trace, hnext, List.flatMap_append]
    rw [List.append_assoc, hlater, ← List.append_assoc, hfirst, List.append_assoc]

end Trace

section Left

theorem left_of_worker? {id : WorkerId} {worker : Worker} (hw : state.worker? id = some worker) :
    state.left id = worker.effects := by
  rw [State.left, hw]

theorem left_congr (after : State) (he : after.expanders = state.expanders)
    (hd : after.decompressors = state.decompressors) (id : WorkerId) :
    after.left id = state.left id := by
  cases id with
  | expander index => rw [State.left, State.left, State.worker?, State.worker?, he]
  | decompressor index => rw [State.left, State.left, State.worker?, State.worker?, hd]

/-- What a worker has before it when some worker, with nothing else changed in the pools, has turned
into another. -/
theorem left_setWorker (after : State) {id : WorkerId} {worker : Worker}
    (hw : state.worker? id = some worker)
    (he : after.expanders = state.expanders) (hd : after.decompressors = state.decompressors)
    (next : Worker) (other : WorkerId) :
    (after.setWorker id next).left other =
      if id = other then next.effects else state.left other := by
  by_cases hsame : id = other
  · subst hsame
    rw [if_pos rfl]
    refine left_of_worker? ?_
    cases id with
    | expander index =>
      rw [State.worker?, ← he] at hw
      exact List.getElem?_set_self (List.getElem?_eq_some_iff.mp hw).1
    | decompressor index =>
      rw [State.worker?, ← hd] at hw
      exact List.getElem?_set_self (List.getElem?_eq_some_iff.mp hw).1
  · rw [if_neg hsame, ← left_congr after he hd, State.left, State.left]
    suffices hworker : (after.setWorker id next).worker? other = after.worker? other by rw [hworker]
    cases id with
    | expander index =>
      cases other with
      | expander other =>
        have hne : index ≠ other := fun h => hsame (congrArg WorkerId.expander h)
        exact List.getElem?_set_ne hne
      | decompressor other => rfl
    | decompressor index =>
      cases other with
      | expander other => rfl
      | decompressor other =>
        have hne : index ≠ other := fun h => hsame (congrArg WorkerId.decompressor h)
        exact List.getElem?_set_ne hne

theorem left_resume (after : State) {id : WorkerId} {worker : Worker}
    (hw : state.worker? id = some worker)
    (he : after.expanders = state.expanders) (hd : after.decompressors = state.decompressors)
    (effects : List Effect) (other : WorkerId) :
    (after.resume id effects).left other = if id = other then effects else state.left other := by
  rw [State.resume, left_setWorker after hw he hd, effects_resumed]

/-- An effect that is carried out, and what takes its place, are all that it comes to. -/
theorem Performs.whole {effect : Effect} {more : List Effect}
    (h : Performs setup state effect after more) :
    effect :: more.flatMap Effect.whole = effect.whole := by
  cases h <;> rfl

end Left

/-- What an event is to the workers: one of them takes a task, carries out an effect or exits, or
it is none of their business. -/
inductive Turn (setup : Setup) (state after : State) (event : Event) : Prop where
  | begins {id : WorkerId} {task : Task} (mid : State)
      (hbegun : state.begun? event = some (id, task))
      (hcarried : state.carried? event = none) (hw : state.worker? id = some .idle)
      (he : mid.expanders = state.expanders) (hd : mid.decompressors = state.decompressors)
      (hqueue : task.gzip?.toList ++ mid.gzipQueue = state.gzipQueue)
      (hproduced : mid.produced = state.produced)
      (hafter : after = mid.resume id (task.effects setup))
  | carries {id : WorkerId} {effect : Effect} {effects : List Effect} (more : List Effect)
      (mid : State)
      (hbegun : state.begun? event = none) (hcarried : state.carried? event = some (id, effect))
      (hw : state.worker? id = some (.busy (effect :: effects)))
      (he : mid.expanders = state.expanders) (hd : mid.decompressors = state.decompressors)
      (hqueue : mid.gzipQueue = state.gzipQueue ++ effect.passed?.toList)
      (hproduced : mid.produced.tally = state.produced.tally + effect.tally)
      (hmore : effect :: more.flatMap Effect.whole = effect.whole)
      (hafter : after = mid.resume id (more ++ effects))
  | exits {id : WorkerId} (mid : State) (hbegun : state.begun? event = none)
      (hcarried : state.carried? event = none) (hw : state.worker? id = some .idle)
      (he : mid.expanders = state.expanders) (hd : mid.decompressors = state.decompressors)
      (hqueue : mid.gzipQueue = state.gzipQueue) (hproduced : mid.produced = state.produced)
      (hafter : after = mid.setWorker id .exited)
  | rests (hbegun : state.begun? event = none) (hcarried : state.carried? event = none)
      (he : after.expanders = state.expanders) (hd : after.decompressors = state.decompressors)
      (hqueue : after.gzipQueue = state.gzipQueue)
      (hproduced : after.produced.tally = state.produced.tally)

/-- The owner leaves everything alone but the count and the path queue. -/
theorem frame_of_own? (h : state.own? = some after) :
    after.expanders = state.expanders ∧ after.decompressors = state.decompressors ∧
      after.gzipQueue = state.gzipQueue ∧ after.produced = state.produced := by
  unfold State.own? at h
  grind [State.produced]

theorem Performs.passed {effect : Effect} {more : List Effect}
    (h : Performs setup state effect after more) :
    after.gzipQueue = state.gzipQueue ++ effect.passed?.toList := by
  cases h with
  | pass _ => rfl
  | _ => exact (List.append_nil _).symm

theorem Performs.produced {effect : Effect} {more : List Effect}
    (h : Performs setup state effect after more) :
    after.produced.tally = state.produced.tally + effect.tally := by
  cases h with
  | @emit record _ =>
    refine Prod.ext ?_ rfl
    change ((↑(state.received.map (·.2) ++ (state.output ++ [record])) : Multiset FileRecord)) =
      ↑(state.received.map (·.2) ++ state.output) + {record}
    rw [← List.append_assoc, ← Multiset.coe_add, Multiset.coe_singleton]
  | skip => exact Prod.ext (add_zero _).symm rfl
  | _ => exact (add_zero _).symm

theorem produced_of_handOver (state : State) (consumer : ℕ) (record : FileRecord) :
    (State.produced { state with
        received := state.received ++ [(consumer, record)]
        emitted := state.emitted + 1 }).tally =
      state.produced.tally + (Effect.emit record).tally := by
  refine Prod.ext ?_ rfl
  change ((↑((state.received ++ [(consumer, record)]).map (·.2) ++ state.output) :
    Multiset FileRecord)) = ↑(state.received.map (·.2) ++ state.output) + {record}
  rw [List.map_append, ← Multiset.coe_add, ← Multiset.coe_add, ← Multiset.coe_add,
    add_right_comm]
  rfl

theorem produced_of_receive {record : FileRecord} {output : List FileRecord} (consumer : ℕ)
    (ho : state.output = record :: output) :
    State.produced { state with output, received := state.received ++ [(consumer, record)] } =
      state.produced := by
  simp [State.produced, ho]

theorem turn_of_next? (h : state.next? setup event = some after) :
    Turn setup state after event := by
  cases occurs_of_next? h with
  | own h =>
    obtain ⟨he, hd, hqueue, hproduced⟩ := frame_of_own? h
    exact .rests rfl rfl he hd hqueue (by rw [hproduced])
  | @expand index path jobs hw hj =>
    have hbegun : state.begun? (.take index) = some (.expander index, .expand path) := by
      rw [State.begun?, hj]
    exact .begins { state with jobs } hbegun rfl hw rfl rfl rfl rfl rfl
  | @retire index jobs hw hj =>
    have hbegun : state.begun? (.take index) = none := by rw [State.begun?, hj]
    exact .exits { state with jobs } hbegun rfl hw rfl rfl rfl rfl rfl
  | @inflate index name content gzipQueue hw hq =>
    have hbegun : state.begun? (.inflate index) =
        some (.decompressor index, .decompress name content) := by rw [State.begun?, hq]
    exact .begins { state with gzipQueue } hbegun rfl hw rfl rfl hq.symm rfl rfl
  | leave hw _ _ => exact .exits state rfl rfl hw rfl rfl rfl rfl rfl
  | @act id effect effects more mid hw hp =>
    obtain ⟨_, he, hd, _⟩ := hp.frame
    have hcarried : state.carried? (.act id) = some (id, effect) := by rw [State.carried?, hw]
    exact .carries more mid rfl hcarried hw he hd hp.passed hp.produced hp.whole rfl
  | @handOver id record effects consumer hw _ _ =>
    have hcarried : state.carried? (.handOver id consumer) = some (id, .emit record) := by
      rw [State.carried?, hw]
    exact .carries []
      { state with
        received := state.received ++ [(consumer, record)]
        emitted := state.emitted + 1 }
      rfl hcarried hw rfl rfl (List.append_nil _).symm
      (produced_of_handOver state consumer record) rfl rfl
  | @receive record output consumer ho _ =>
    exact .rests rfl rfl rfl rfl rfl (by rw [produced_of_receive consumer ho])

/-- What a worker carries out is moved from what it has before it, to which the plan of the task
that it takes is added. -/
theorem plan_balance (id : WorkerId) (h : state.next? setup event = some after) :
    ((state.carried? event).toList.flatMap fun entry => if entry.1 = id then [entry.2] else []) ++
        (after.left id).flatMap Effect.whole =
      (state.left id).flatMap Effect.whole ++
        (state.begun? event).toList.flatMap fun entry =>
          if entry.1 = id then entry.2.plan setup else [] := by
  cases turn_of_next? h with
  | @begins other task mid hbegun hcarried hw he hd _ _ hafter =>
    rw [hbegun, hcarried, hafter, left_resume mid hw he hd]
    by_cases hid : other = id
    · subst hid
      simp [left_of_worker? hw, Worker.effects, Task.plan]
    · simp [hid]
  | @carries other effect effects more mid hbegun hcarried hw he hd _ _ hmore hafter =>
    rw [hbegun, hcarried, hafter, left_resume mid hw he hd]
    by_cases hid : other = id
    · subst hid
      simp [left_of_worker? hw, Worker.effects, ← hmore]
    · simp [hid]
  | @exits other mid hbegun hcarried hw he hd _ _ hafter =>
    rw [hbegun, hcarried, hafter, left_setWorker mid hw he hd]
    by_cases hid : other = id
    · subst hid
      simp [left_of_worker? hw, Worker.effects]
    · simp [hid]
  | rests hbegun hcarried he hd _ _ =>
    rw [hbegun, hcarried, left_congr after he hd]
    simp

/-- The gzip queue is first-in first-out: what is passed on is added at its end, and what is begun
is taken from its front. -/
theorem gzip_balance (h : state.next? setup event = some after) :
    ((state.begun? event).toList.flatMap fun entry => entry.2.gzip?.toList) ++ after.gzipQueue =
      state.gzipQueue ++
        (state.carried? event).toList.flatMap fun entry => entry.2.passed?.toList := by
  cases turn_of_next? h with
  | begins mid hbegun hcarried _ _ _ hqueue _ hafter =>
    rw [hbegun, hcarried, hafter, State.gzipQueue_resume, ← hqueue]
    simp
  | carries more mid hbegun hcarried _ _ _ hqueue _ _ hafter =>
    rw [hbegun, hcarried, hafter, State.gzipQueue_resume, hqueue]
    simp
  | exits mid hbegun hcarried _ _ _ hqueue _ hafter =>
    rw [hbegun, hcarried, hafter, State.gzipQueue_setWorker, hqueue]
    simp
  | rests hbegun hcarried _ _ hqueue _ =>
    rw [hbegun, hcarried, hqueue]
    simp

theorem produced_setWorker (state : State) (id : WorkerId) (worker : Worker) :
    (state.setWorker id worker).produced = state.produced := by
  cases id <;> rfl

theorem tally_balance (h : state.next? setup event = some after) :
    after.produced.tally = state.produced.tally +
      ((state.carried? event).toList.map fun entry => entry.2.tally).sum := by
  cases turn_of_next? h with
  | begins mid hbegun hcarried _ _ _ _ hproduced hafter =>
    rw [hcarried, hafter, State.resume, produced_setWorker, hproduced]
    simp
  | carries more mid hbegun hcarried _ _ _ _ hproduced _ hafter =>
    rw [hcarried, hafter, State.resume, produced_setWorker, hproduced]
    simp
  | exits mid hbegun hcarried _ _ _ _ hproduced hafter =>
    rw [hcarried, hafter, produced_setWorker, hproduced]
    simp
  | rests hbegun hcarried _ _ _ hproduced =>
    rw [hcarried, hproduced]
    simp

/-- What comes out in a run is what is carried out in it. -/
theorem tally_of_run? (hrun : state.run? setup events = some after) :
    after.produced.tally = state.produced.tally +
      ((state.trace setup State.carried? events).map fun entry => entry.2.tally).sum := by
  induction events generalizing state with
  | nil =>
    cases hrun
    simp [State.trace]
  | cons event events ih =>
    obtain ⟨next, hnext, hrest⟩ := run?_cons_eq_some_iff.mp hrun
    rw [ih hrest, tally_balance hnext, State.trace, hnext, List.map_append, List.sum_append,
      add_assoc]

/-- When closing has returned, no worker has anything before it. -/
theorem left_of_closed (hs : Invariant setup inputs state) (hc : state.isClosed = true)
    (id : WorkerId) : state.left id = [] := by
  have ho := isClosed_iff.mp hc
  have hexited : ∀ worker, state.worker? id = some worker → worker = .exited := by
    intro worker hw
    cases id with
    | expander index =>
      exact expandersExited_iff.mp (hs.shutdown.expanders_gone (Or.inr ho)) worker
        (List.mem_of_getElem? hw)
    | decompressor index =>
      exact decompressorsExited_iff.mp (hs.shutdown.decompressors_gone ho) worker
        (List.mem_of_getElem? hw)
  cases hw : state.worker? id with
  | none => rw [State.left, hw]
  | some worker => rw [left_of_worker? hw, hexited worker hw, Worker.effects]

/-- Decompressors take nothing but gzip data. -/
theorem exists_of_begun? {index : ℕ} {task : Task}
    (h : state.begun? event = some (.decompressor index, task)) :
    ∃ name content, task = .decompress name content := by
  cases event with
  | take other =>
    rw [State.begun?] at h
    split at h <;> cases h
  | inflate other =>
    rw [State.begun?] at h
    split at h
    · cases h
      exact ⟨_, _, rfl⟩
    · cases h
  | _ => cases h

theorem left_initial (setup : Setup) (inputs : List Path) (id : WorkerId) :
    (initial setup inputs).left id = [] := by
  have hidle : ∀ worker, (initial setup inputs).worker? id = some worker → worker = .idle := by
    intro worker hw
    cases id with
    | expander index => exact List.eq_of_mem_replicate (List.mem_of_getElem? hw)
    | decompressor index => exact List.eq_of_mem_replicate (List.mem_of_getElem? hw)
  cases hw : (initial setup inputs).worker? id with
  | none => rw [State.left, hw]
  | some worker => rw [left_of_worker? hw, hidle worker hw, Worker.effects]

/-- When closing has returned, every worker has carried out the plans of its tasks one after
another, the gzip data that was passed on has been begun in the same order, and what has come out is
what was carried out. -/
theorem tasks_of_closed (hrun : (initial setup inputs).run? setup events = some state)
    (hc : state.isClosed = true) :
    (∀ id, ofWorker id ((initial setup inputs).trace setup State.carried? events) =
        (ofWorker id ((initial setup inputs).trace setup State.begun? events)).flatMap
          (Task.plan setup)) ∧
      ((initial setup inputs).trace setup State.begun? events).flatMap
          (fun entry => entry.2.gzip?.toList) =
        ((initial setup inputs).trace setup State.carried? events).flatMap
          (fun entry => entry.2.passed?.toList) ∧
      state.produced.tally =
        (((initial setup inputs).trace setup State.carried? events).map fun entry =>
          entry.2.tally).sum := by
  have hs := reachable_invariant (reachable_of_run? .start hrun)
  refine ⟨?_, ?_, ?_⟩
  · intro id
    have hbalance := trace_balance State.carried? State.begun?
      (fun entry => if entry.1 = id then [entry.2] else [])
      (fun entry => if entry.1 = id then entry.2.plan setup else [])
      (fun state => (state.left id).flatMap Effect.whole) (plan_balance id) hrun
    rw [left_of_closed hs hc, left_initial, List.flatMap_nil, List.append_nil, List.nil_append,
      ← ofWorker_flatMap id _ fun effect => [effect], List.flatMap_singleton',
      ← ofWorker_flatMap] at hbalance
    exact hbalance
  · have hbalance := trace_balance State.begun? State.carried? (fun entry => entry.2.gzip?.toList)
      (fun entry => entry.2.passed?.toList) State.gzipQueue gzip_balance hrun
    have ho := isClosed_iff.mp hc
    rw [hs.shutdown.emptied (hs.shutdown.decompressors_gone ho), List.append_nil] at hbalance
    exact hbalance
  · rw [tally_of_run? hrun]
    exact zero_add _

end PlaneArchive.Scan
