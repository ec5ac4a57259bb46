import PlaneArchive.Proofs.Scan.ScheduleIndependence

/-! # A scan cannot deadlock

Nobody waits in a circle: expanders wait for decompressors, decompressors for the output, and the
output for consumers. The owner waits for the count or for a pool, and there is a shutdown message
for every expander that is still present. So until closing returns there is always someone who can
go on, if the output is unbounded or somebody receives it.
-/
namespace PlaneArchive.Scan

def State.CanStep (setup : Setup) (state : State) : Prop :=
  ∃ event after, state.next? setup event = some after

/-- What is handed over finds a place or a taker sooner or later. -/
def Setup.OutputMoves (setup : Setup) : Prop :=
  setup.config.outputCapacity? = none ∨ 0 < setup.consumers

def Worker.presence : Worker → ℕ
  | .exited => 0
  | .idle | .busy _ => 1

/-- How many expanders have not exited. -/
def State.present (state : State) : ℕ := (state.expanders.map Worker.presence).sum

def Job.shutdowns : Job → ℕ
  | .shutdown => 1
  | .expand _ => 0

/-- The shutdown messages that are still to be sent to this many expanders. -/
def Owner.unsent (expanders : ℕ) : Owner → ℕ
  | .adding _ | .sending _ _ | .waiting => expanders
  | .stopping count => count
  | .joiningExpanders | .joiningDecompressors | .closed => 0

/-- What holds of the pools while there is work for them. -/
structure Staffed (setup : Setup) (state : State) : Prop where
  size : state.expanders.length = setup.config.expanders
  messages : state.present =
    (state.jobs.map Job.shutdowns).sum + state.owner.unsent state.expanders.length
  occupied : Worker.busy [] ∉ state.decompressors

variable {setup : Setup} {inputs : List Path} {state after : State}

theorem presence_eq_one {worker : Worker} (h : worker ≠ .exited) : worker.presence = 1 := by
  cases worker with
  | exited => exact absurd rfl h
  | idle => rfl
  | busy effects => rfl

theorem present_pos_iff : 0 < state.present ↔ ∃ worker ∈ state.expanders, worker ≠ .exited := by
  rw [State.present, List.sum_pos_iff_exists_pos_nat]
  constructor
  · rintro ⟨n, hmem, hpos⟩
    obtain ⟨worker, hworker, rfl⟩ := List.mem_map.mp hmem
    refine ⟨worker, hworker, ?_⟩
    rintro rfl
    exact absurd hpos (Nat.lt_irrefl 0)
  · rintro ⟨worker, hworker, hne⟩
    exact ⟨1, List.mem_map.mpr ⟨worker, hworker, presence_eq_one hne⟩, Nat.one_pos⟩

theorem length_expanders_setWorker (state : State) (id : WorkerId) (worker : Worker) :
    (state.setWorker id worker).expanders.length = state.expanders.length := by
  cases id with
  | expander index => exact List.length_set
  | decompressor index => rfl

/-- A worker that goes on, and does not exit, is present as before. -/
theorem present_resume (after : State) {id : WorkerId} {worker : Worker}
    (hw : state.worker? id = some worker) (hne : worker ≠ .exited)
    (he : after.expanders = state.expanders) (effects : List Effect) :
    (after.resume id effects).present = state.present := by
  cases id with
  | decompressor index => exact congrArg (fun workers => (workers.map Worker.presence).sum) he
  | expander index =>
    obtain ⟨others, hbefore, hafter⟩ := exists_sum_eq Worker.presence hw
    change ((after.expanders.set index _).map Worker.presence).sum =
      (state.expanders.map Worker.presence).sum
    rw [he, hafter, hbefore, presence_eq_one hne, presence_eq_one (resumed_ne_exited effects)]

theorem Performs.shutdowns {effect : Effect} {more : List Effect}
    (h : Performs setup state effect after more) :
    (after.jobs.map Job.shutdowns).sum = (state.jobs.map Job.shutdowns).sum := by
  cases h <;> simp [Job.shutdowns]

/-- Every expander that is present has its shutdown message, sent or still to be sent. -/
theorem Move.messages (h : Move setup state after) (hs : Staffed setup state) :
    after.present =
      (after.jobs.map Job.shutdowns).sum + after.owner.unsent after.expanders.length := by
  have hmessages := hs.messages
  cases h with
  | countInput ho =>
    rw [ho] at hmessages
    exact hmessages
  | sendInput ho =>
    rw [ho] at hmessages
    simpa [State.present, Job.shutdowns, Owner.unsent] using hmessages
  | wait ho =>
    rw [ho] at hmessages
    exact hmessages
  | stop ho _ =>
    rw [ho] at hmessages
    exact hmessages
  | sendShutdown ho =>
    rw [ho] at hmessages
    simp only [State.present, List.map_append, List.sum_append, List.map_singleton,
      List.sum_singleton, Job.shutdowns, Owner.unsent] at hmessages ⊢
    omega
  | join ho =>
    rw [ho] at hmessages
    exact hmessages
  | joinExpanders ho _ =>
    rw [ho] at hmessages
    exact hmessages
  | joinDecompressors ho _ =>
    rw [ho] at hmessages
    exact hmessages
  | @expand index path jobs hw hj =>
    rw [present_resume { state with jobs } hw Worker.noConfusion rfl, hmessages, hj,
      State.resume, length_expanders_setWorker]
    simp [Job.shutdowns, State.setWorker]
  | @retire index jobs hw hj =>
    obtain ⟨others, hbefore, hafter⟩ := exists_sum_eq Worker.presence hw
    rw [State.present, hbefore, hj, List.map_cons, List.sum_cons] at hmessages
    rw [length_expanders_setWorker]
    change ((state.expanders.set index .exited).map Worker.presence).sum =
      (jobs.map Job.shutdowns).sum + state.owner.unsent state.expanders.length
    rw [hafter]
    change others + 1 = 1 + _ + _ at hmessages
    change others + 0 = _
    omega
  | @inflate index name content gzipQueue hw hq =>
    exact hmessages
  | leave hw hq he => exact hmessages
  | @act id effect effects more mid hw hp =>
    obtain ⟨ho, he, _, _⟩ := hp.frame
    rw [present_resume mid hw Worker.noConfusion he, hmessages, State.jobs_resume,
      State.owner_resume, hp.shutdowns, ho, State.resume, length_expanders_setWorker, he]
  | @handOver id record effects consumer hw _ =>
    rw [present_resume { state with
        received := state.received ++ [(consumer, record)], emitted := state.emitted + 1 } hw
      Worker.noConfusion rfl, hmessages, State.jobs_resume, State.owner_resume, State.resume,
      length_expanders_setWorker]
  | receive _ _ => exact hmessages

theorem Move.staffed (h : Move setup state after) (hs : Staffed setup state) :
    Staffed setup after := by
  refine ⟨?_, h.messages hs, ?_⟩
  · have hsize := hs.size
    cases h with
    | expand _ _ => rw [State.resume, length_expanders_setWorker]; exact hsize
    | retire _ _ => rw [length_expanders_setWorker]; exact hsize
    | inflate _ _ => exact hsize
    | leave _ _ _ => exact hsize
    | act _ hp => rw [State.resume, length_expanders_setWorker, hp.frame.2.1]; exact hsize
    | handOver _ _ => rw [State.resume, length_expanders_setWorker]; exact hsize
    | _ => exact hsize
  · intro hmem
    rcases h.decompressors with hsame | ⟨_, _, effects, _, _, hset⟩ | ⟨_, _, hset, _⟩
    · exact hs.occupied (hsame ▸ hmem)
    · rw [hset] at hmem
      rcases mem_set_resumed hmem with hold | ⟨hnil, hne⟩
      · exact hs.occupied hold
      · exact hne hnil.symm
    · rw [hset] at hmem
      rcases List.mem_or_eq_of_mem_set hmem with hold | hnew
      · exact hs.occupied hold
      · cases hnew

theorem staffed_initial (setup : Setup) (inputs : List Path) :
    Staffed setup (initial setup inputs) where
  size := List.length_replicate
  messages := by simp [State.present, initial, Owner.unsent, Worker.presence]
  occupied := by
    intro hmem
    cases List.eq_of_mem_replicate hmem

theorem staffed_of_reachable (h : Reachable setup inputs state) : Staffed setup state := by
  induction h with
  | start => exact staffed_initial setup inputs
  | step _ _ hnext ih => exact (move_of_next? hnext).staffed ih

section Workers

variable {id : WorkerId} {effect : Effect} {effects : List Effect}

theorem canStep_of_isSome {event : Event} (h : (state.next? setup event).isSome = true) :
    state.CanStep setup := by
  obtain ⟨after, hnext⟩ := Option.isSome_iff_exists.mp h
  exact ⟨event, after, hnext⟩

theorem canStep_of_perform (hw : state.worker? id = some (.busy (effect :: effects)))
    (hp : (state.perform? setup effect).isSome = true) : state.CanStep setup := by
  obtain ⟨⟨mid, more⟩, hperform⟩ := Option.isSome_iff_exists.mp hp
  refine ⟨.act id, mid.resume id (more ++ effects), ?_⟩
  rw [State.next?, State.act?, hw]
  dsimp only
  rw [hperform]
  rfl

/-- Whoever has a record to hand over can do so, or a consumer can make room. -/
theorem canStep_of_emit (hout : setup.OutputMoves) {record : FileRecord}
    (hw : state.worker? id = some (.busy (.emit record :: effects))) : state.CanStep setup := by
  by_cases hroom : state.outputHasRoom setup = true
  · refine canStep_of_perform hw ?_
    rw [State.perform?, if_pos hroom]
    rfl
  · have hbounded : setup.config.outputCapacity? ≠ none := by
      intro hnone
      refine hroom ?_
      rw [State.outputHasRoom, hnone]
    have hconsumer := hout.resolve_left hbounded
    obtain ⟨capacity, hcapacity⟩ := Option.ne_none_iff_exists'.mp hbounded
    by_cases hzero : capacity = 0
    · subst hzero
      have hnext : (state.next? setup (.handOver id 0)).isSome = true := by
        rw [State.next?, State.handOver?, hw]
        dsimp only
        rw [if_pos ⟨hcapacity, hconsumer⟩]
        rfl
      exact canStep_of_isSome hnext
    · rw [State.outputHasRoom, hcapacity] at hroom
      cases houtput : state.output with
      | nil =>
        rw [houtput] at hroom
        exact absurd (decide_eq_true (Nat.pos_of_ne_zero hzero)) hroom
      | cons first output =>
        have hnext : (state.next? setup (.receive 0)).isSome = true := by
          rw [State.next?, State.receive?, houtput]
          dsimp only
          rw [if_pos hconsumer]
          rfl
        exact canStep_of_isSome hnext

/-- A decompressor that is present can go on, unless its queue is empty and may still be filled. -/
theorem canStep_of_decompressor (hs : Staffed setup state) (hd : Disciplined state)
    (hout : setup.OutputMoves) {index : ℕ} {worker : Worker}
    (hw : state.worker? (.decompressor index) = some worker) (hne : worker ≠ .exited)
    (hqueue : state.gzipQueue ≠ [] ∨ state.expandersExited = true) : state.CanStep setup := by
  cases worker with
  | exited => exact absurd rfl hne
  | idle =>
    cases hq : state.gzipQueue with
    | nil =>
      have hexited := hqueue.resolve_left fun h => h hq
      have hnext : (state.next? setup (.leave index)).isSome = true := by
        rw [State.next?, State.leave?, hw, hq]
        dsimp only
        rw [if_pos hexited]
        rfl
      exact canStep_of_isSome hnext
    | cons item gzipQueue =>
      obtain ⟨name, content⟩ := item
      have hnext : (state.next? setup (.inflate index)).isSome = true := by
        rw [State.next?, State.inflate?, hw, hq]
        rfl
      exact canStep_of_isSome hnext
  | busy effects =>
    have hmem : Worker.busy effects ∈ state.decompressors := List.mem_of_getElem? hw
    cases effects with
    | nil => exact absurd hmem hs.occupied
    | cons effect effects =>
      rcases hd.inflating _ hmem effect List.mem_cons_self with ⟨record, rfl⟩ | rfl
      · exact canStep_of_emit hout hw
      · exact canStep_of_perform hw rfl

/-- Whoever has gzip data to pass on can do so, or a decompressor can go on. -/
theorem canStep_of_pass (hs : Staffed setup state) (hi : Invariant setup inputs state)
    (hpool : 0 < setup.config.decompressors) (hout : setup.OutputMoves) {name : String}
    {content : Bytes} {index : ℕ}
    (hw : state.worker? (.expander index) = some (.busy (.pass name content :: effects))) :
    state.CanStep setup := by
  by_cases hroom : state.gzipHasRoom setup = true
  · refine canStep_of_perform hw ?_
    rw [State.perform?, if_pos hroom]
    rfl
  · -- The queue is full, so it is not empty, and the first decompressor is there to take from it.
    have hfull : setup.config.decompressors ≤ state.gzipQueue.length := by
      simpa [State.gzipHasRoom] using hroom
    have hqueue : state.gzipQueue ≠ [] := List.ne_nil_of_length_pos (by omega)
    have hlength : 0 < state.decompressors.length := hi.shutdown.pool.symm ▸ hpool
    have hfirst : state.worker? (.decompressor 0) = some state.decompressors[0] :=
      List.getElem?_eq_getElem hlength
    refine canStep_of_decompressor hs hi.disciplined hout hfirst ?_ (Or.inl hqueue)
    intro hexited
    have hgone := hi.shutdown.left (hexited ▸ List.getElem_mem hlength)
    exact Worker.noConfusion (expandersExited_iff.mp hgone _ (List.mem_of_getElem? hw))

/-- An expander that is present can go on, unless it is idle and its queue is empty. -/
theorem canStep_of_expander (hs : Staffed setup state) (hi : Invariant setup inputs state)
    (hpool : 0 < setup.config.decompressors) (hout : setup.OutputMoves) {index : ℕ}
    {worker : Worker} (hw : state.worker? (.expander index) = some worker)
    (hne : worker ≠ .exited) (hjobs : worker = .idle → state.jobs ≠ []) :
    state.CanStep setup := by
  cases worker with
  | exited => exact absurd rfl hne
  | idle =>
    cases hj : state.jobs with
    | nil => exact absurd hj (hjobs rfl)
    | cons job jobs =>
      have hnext : (state.next? setup (.take index)).isSome = true := by
        rw [State.next?, State.take?, hw, hj]
        cases job <;> rfl
      exact canStep_of_isSome hnext
  | busy effects =>
    have hexpanding := hi.disciplined.expanding effects (List.mem_of_getElem? hw)
    cases effects with
    | nil =>
      obtain ⟨before, heq, _⟩ := hexpanding
      cases before <;> cases heq
    | cons effect effects =>
      cases effect with
      | emit record => exact canStep_of_emit hout hw
      | pass name content => exact canStep_of_pass hs hi hpool hout hw
      | count path => exact canStep_of_perform hw rfl
      | send path => exact canStep_of_perform hw rfl
      | skip => exact canStep_of_perform hw rfl
      | done => exact canStep_of_perform hw rfl

end Workers

/-- As long as something is pending, a job is queued or an expander is at work. -/
theorem exists_busy_of_pending (hi : Invariant setup inputs state) (hw : state.owner.weight = 0)
    (hp : 0 < state.pending) (hj : state.jobs = []) :
    ∃ effects, Worker.busy effects ∈ state.expanders := by
  by_contra hnone
  have hexpanders : poolLoad Effect.weight state.expanders = 0 := by
    refine List.sum_eq_zero fun load hmem => ?_
    obtain ⟨worker, hworker, rfl⟩ := List.mem_map.mp hmem
    cases worker with
    | busy effects => exact absurd ⟨effects, hworker⟩ hnone
    | idle => rfl
    | exited => rfl
  have hzero : state.work = 0 := by
    rw [State.work, hw, hj, State.load, hexpanders,
      poolLoad_weight_decompressors hi.disciplined]
    rfl
  rw [hi.pending_eq, hzero] at hp
  exact absurd hp (Nat.lt_irrefl 0)

/-- While the owner waits for expanders, one of them can go on. -/
theorem canStep_of_present (hs : Staffed setup state) (hi : Invariant setup inputs state)
    (hpool : 0 < setup.config.decompressors) (hout : setup.OutputMoves)
    (hpresent : 0 < state.present)
    (hjobs : state.jobs = [] → ∃ effects, Worker.busy effects ∈ state.expanders) :
    state.CanStep setup := by
  have hfind : ∀ worker ∈ state.expanders, ∃ index, state.worker? (.expander index) = some worker :=
    fun worker hmem => List.getElem?_of_mem hmem
  by_cases hempty : state.jobs = []
  · obtain ⟨effects, hmem⟩ := hjobs hempty
    obtain ⟨index, hw⟩ := hfind _ hmem
    exact canStep_of_expander hs hi hpool hout hw Worker.noConfusion fun h => Worker.noConfusion h
  · obtain ⟨worker, hmem, hne⟩ := present_pos_iff.mp hpresent
    obtain ⟨index, hw⟩ := hfind worker hmem
    exact canStep_of_expander hs hi hpool hout hw hne fun _ => hempty

theorem validate_eq_ok_iff (config : ScanConfig) :
    config.validate = .ok () ↔ 0 < config.expanders ∧ 0 < config.decompressors := by
  unfold ScanConfig.validate
  by_cases he : config.expanders = 0
  · simp [he]
  · by_cases hd : config.decompressors = 0
    · simp [hd]
    · simp [he, hd, Nat.pos_of_ne_zero]

/-- Until closing returns someone can go on. -/
theorem canStep_of_open (hc : setup.config.validate = .ok ()) (hout : setup.OutputMoves)
    (hr : Reachable setup inputs state) (hopen : state.owner ≠ .closed) :
    state.CanStep setup := by
  obtain ⟨hexpanders, hpool⟩ := (validate_eq_ok_iff _).mp hc
  have hi := reachable_invariant hr
  have hs := staffed_of_reachable hr
  have hmessages := hs.messages
  have howner : ∀ next, state.own? = some next → state.CanStep setup := fun next h =>
    ⟨.own, next, h⟩
  cases ho : state.owner with
  | adding inputs =>
    cases inputs with
    | nil => exact howner _ (by rw [State.own?, ho])
    | cons path inputs => exact howner _ (by rw [State.own?, ho])
  | sending path inputs => exact howner _ (by rw [State.own?, ho])
  | waiting =>
    by_cases hp : state.pending = 0
    · exact howner _ (by rw [State.own?, ho]; exact if_pos hp)
    · refine canStep_of_present hs hi hpool hout ?_ ?_
      · rw [hmessages, ho, Owner.unsent, hs.size]
        omega
      · exact exists_busy_of_pending hi (by rw [ho]; rfl) (Nat.pos_of_ne_zero hp)
  | stopping count =>
    cases count with
    | zero => exact howner _ (by rw [State.own?, ho])
    | succ count => exact howner _ (by rw [State.own?, ho])
  | joiningExpanders =>
    by_cases he : state.expandersExited = true
    · exact howner _ (by rw [State.own?, ho]; exact if_pos he)
    · have hpresent : 0 < state.present := by
        rw [expandersExited_iff] at he
        push Not at he
        exact present_pos_iff.mpr he
      -- Those that are present have their messages on the queue, so it is not empty.
      refine canStep_of_present hs hi hpool hout hpresent fun hempty => ?_
      rw [hmessages, ho, hempty] at hpresent
      exact absurd hpresent (Nat.lt_irrefl 0)
  | joiningDecompressors =>
    by_cases hd : state.decompressorsExited = true
    · exact howner _ (by rw [State.own?, ho]; exact if_pos hd)
    · rw [decompressorsExited_iff] at hd
      push Not at hd
      obtain ⟨worker, hmem, hne⟩ := hd
      obtain ⟨index, hw⟩ := List.getElem?_of_mem hmem
      have hgone := hi.shutdown.expanders_gone (Or.inl ho)
      exact canStep_of_decompressor hs hi.disciplined hout hw hne (Or.inr hgone)
  | closed => exact absurd ho hopen

theorem Shutdown.jobs_eq_nil (hs : Shutdown setup state) (hp : state.work ≤ state.pending)
    (hstaffed : Staffed setup state) (ho : state.owner = .closed) : state.jobs = [] := by
  have hexpanders := hs.expanders_gone (Or.inr ho)
  rw [List.eq_nil_iff_forall_not_mem]
  intro job hmem
  cases job with
  | expand path =>
    have hquiet := hs.quiet (by rw [ho]; rfl)
    exact absurd hquiet (pending_pos_of_mem_jobs hp hmem).ne'
  | shutdown =>
    have hsent : 0 < (state.jobs.map Job.shutdowns).sum :=
      List.sum_pos_iff_exists_pos_nat.mpr ⟨1, List.mem_map.mpr ⟨_, hmem, rfl⟩, Nat.one_pos⟩
    have hpresent : 0 < state.present := by
      rw [hstaffed.messages]
      omega
    obtain ⟨worker, hworker, hne⟩ := present_pos_iff.mp hpresent
    exact hne (expandersExited_iff.mp hexpanders worker hworker)

theorem jobs_eq_nil_of_closed (hr : Reachable setup inputs state) (ho : state.owner = .closed) :
    state.jobs = [] := by
  have hi := reachable_invariant hr
  exact hi.shutdown.jobs_eq_nil hi.pending_eq.ge (staffed_of_reachable hr) ho

/-- Once every worker has exited, the owner may go on with closing, and what has been handed over is
received; nothing else happens. -/
theorem Move.of_exited (h : Move setup state after) (he : state.expandersExited = true)
    (hd : state.decompressorsExited = true) :
    (state.owner ≠ .closed ∧ ∃ owner pending jobs, after = { state with owner, pending, jobs }) ∨
      ∃ consumer record, state.output = record :: after.output ∧
        after = { state with
          output := after.output
          received := state.received ++ [(consumer, record)] } := by
  have hgone : ∀ {id : WorkerId} {worker : Worker}, state.worker? id = some worker →
      worker = .exited := by
    intro id worker hw
    cases id with
    | expander index => exact expandersExited_iff.mp he worker (List.mem_of_getElem? hw)
    | decompressor index => exact decompressorsExited_iff.mp hd worker (List.mem_of_getElem? hw)
  have howner : ∀ {owner : Owner} (next : Owner) (pending : ℕ) (jobs : List Job),
      state.owner = owner → owner ≠ .closed → state.owner ≠ .closed ∧
        ∃ owner' pending' jobs', { state with owner := next, pending, jobs } =
          { state with owner := owner', pending := pending', jobs := jobs' } :=
    fun next pending jobs ho hopen => ⟨ho ▸ hopen, next, pending, jobs, rfl⟩
  cases h with
  | countInput ho => exact Or.inl (howner _ _ state.jobs ho Owner.noConfusion)
  | sendInput ho => exact Or.inl (howner _ state.pending _ ho Owner.noConfusion)
  | wait ho => exact Or.inl (howner _ state.pending state.jobs ho Owner.noConfusion)
  | stop ho _ => exact Or.inl (howner _ state.pending state.jobs ho Owner.noConfusion)
  | sendShutdown ho => exact Or.inl (howner _ state.pending _ ho Owner.noConfusion)
  | join ho => exact Or.inl (howner _ state.pending state.jobs ho Owner.noConfusion)
  | joinExpanders ho _ => exact Or.inl (howner _ state.pending state.jobs ho Owner.noConfusion)
  | joinDecompressors ho _ => exact Or.inl (howner _ state.pending state.jobs ho Owner.noConfusion)
  | receive houtput _ => exact Or.inr ⟨_, _, houtput, rfl⟩
  | expand hw _ => cases hgone hw
  | retire hw _ => cases hgone hw
  | inflate hw _ => cases hgone hw
  | leave hw _ _ => cases hgone hw
  | act hw _ => cases hgone hw
  | handOver hw _ => cases hgone hw

/-- After closing has returned, what is left on the output is received in its order, and then
nothing can happen any more. -/
theorem run?_of_closed {events : List Event} (hr : Reachable setup inputs state)
    (ho : state.owner = .closed) (hrun : state.run? setup events = some after) :
    after.received.map (·.2) ++ after.output = state.received.map (·.2) ++ state.output ∧
      events.length + after.output.length = state.output.length := by
  induction events generalizing state with
  | nil =>
    cases hrun
    exact ⟨rfl, Nat.zero_add _⟩
  | cons event events ih =>
    obtain ⟨next, hnext, hrest⟩ := run?_cons_eq_some_iff.mp hrun
    have hshutdown := (reachable_invariant hr).shutdown
    have hexited := (move_of_next? hnext).of_exited (hshutdown.expanders_gone (Or.inr ho))
      (hshutdown.decompressors_gone ho)
    rcases hexited with ⟨hopen, _⟩ | ⟨consumer, record, hfirst, hafter⟩
    · exact absurd ho hopen
    · have hclosed : next.owner = .closed := by
        rw [hafter]
        exact ho
      have hreceived : next.received = state.received ++ [(consumer, record)] := by rw [hafter]
      obtain ⟨hrecords, hlength⟩ := ih (.step event hr hnext) hclosed hrest
      constructor
      · rw [hrecords, hreceived, hfirst]
        simp
      · rw [hfirst, List.length_cons, List.length_cons]
        omega

/-- A consumer that keeps receiving comes to the end of the stream. -/
theorem exists_run?_receive {consumer : ℕ} (hc : consumer < setup.consumers)
    (ho : state.owner = .closed) : ∃ after,
      state.run? setup (List.replicate state.output.length (.receive consumer)) = some after ∧
        after.isDrained = true := by
  generalize hrecords : state.output = records
  induction records generalizing state with
  | nil => exact ⟨state, rfl, isDrained_iff.mpr ⟨ho, hrecords⟩⟩
  | cons record records ih =>
    let next : State :=
      { state with output := records, received := state.received ++ [(consumer, record)] }
    have hnext : state.next? setup (.receive consumer) = some next := by
      rw [State.next?, State.receive?, hrecords]
      exact if_pos hc
    have hclosed : next.owner = .closed := ho
    obtain ⟨after, hrun, hd⟩ := ih hclosed rfl
    exact ⟨after, run?_cons_eq_some_iff.mpr ⟨next, hnext, hrun⟩, hd⟩

/-- Nothing is left behind: the queues are empty, no worker is left that could hand over a record,
and the stream ends after what is on it. -/
structure CleanlyClosed (setup : Setup) (state : State) : Prop where
  jobs_nil : state.jobs = []
  gzipQueue_nil : state.gzipQueue = []
  expanders_exited : ∀ worker ∈ state.expanders, worker = .exited
  decompressors_exited : ∀ worker ∈ state.decompressors, worker = .exited
  stream_ends : ∀ events after, state.run? setup events = some after →
    after.received.map (·.2) ++ after.output = state.received.map (·.2) ++ state.output ∧
      events.length + after.output.length = state.output.length
  can_drain : ∀ consumer < setup.consumers, ∃ after,
    state.run? setup (List.replicate state.output.length (.receive consumer)) = some after ∧
      after.isDrained = true

theorem cleanlyClosed_of_closed (hr : Reachable setup inputs state) (ho : state.owner = .closed) :
    CleanlyClosed setup state where
  jobs_nil := jobs_eq_nil_of_closed hr ho
  gzipQueue_nil := by
    have hshutdown := (reachable_invariant hr).shutdown
    exact hshutdown.emptied (hshutdown.decompressors_gone ho)
  expanders_exited :=
    expandersExited_iff.mp ((reachable_invariant hr).shutdown.expanders_gone (Or.inr ho))
  decompressors_exited :=
    decompressorsExited_iff.mp ((reachable_invariant hr).shutdown.decompressors_gone ho)
  stream_ends := fun _ _ hrun => run?_of_closed hr ho hrun
  can_drain := fun _ hc => exists_run?_receive hc ho

end PlaneArchive.Scan
