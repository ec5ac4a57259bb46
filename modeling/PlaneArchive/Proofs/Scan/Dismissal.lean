import PlaneArchive.Proofs.Scan.Counting
import PlaneArchive.Proofs.Scan.Expanding

/-! # Expanders are dismissed after the last path

The path queue is first-in first-out, and shutdown messages are sent when nothing is pending any
more. So all paths are taken before the first shutdown message, every expander takes one of them,
and none is left when closing has returned.
-/
namespace PlaneArchive.Scan

variable {setup : Setup} {inputs : List Path} {state after : State} {event : Event}

/-- What has been taken from the queue, and what is still on it, is paths first and then shutdown
messages, of which every expander takes one and exits. -/
structure InOrder (taken : List (ℕ × Job)) (state : State) : Prop where
  ordered : ∃ (paths : List Path) (messages : ℕ), taken.map Prod.snd ++ state.jobs =
    paths.map Job.expand ++ List.replicate messages .shutdown ∧
      (messages ≠ 0 → state.owner.isStopping = true)
  dismissed : ∀ index : ℕ, taken.count (index, .shutdown) =
    if state.expanders[index]? = some .exited then 1 else 0

theorem getElem?_set_exited {workers : List Worker} {index : ℕ} {worker : Worker}
    (hw : workers[index]? = some worker) (hne : worker ≠ .exited) (next : Worker) (other : ℕ) :
    (workers.set index next)[other]? = some .exited ↔
      workers[other]? = some .exited ∨ index = other ∧ next = .exited := by
  have hlt := (List.getElem?_eq_some_iff.mp hw).1
  by_cases hsame : index = other
  · subst hsame
    rw [List.getElem?_set_self hlt, hw, Option.some_inj, Option.some_inj]
    simp [hne]
  · rw [List.getElem?_set_ne hsame]
    simp [hsame]

theorem exited_resume {id : WorkerId} {worker : Worker} (hw : state.worker? id = some worker)
    (hne : worker ≠ .exited) (he : after.expanders = state.expanders) (effects : List Effect)
    (index : ℕ) : (after.resume id effects).expanders[index]? = some .exited ↔
      state.expanders[index]? = some .exited := by
  cases id with
  | decompressor other =>
    change after.expanders[index]? = some .exited ↔ _
    rw [he]
  | expander other =>
    change (after.expanders.set other _)[index]? = some .exited ↔ _
    rw [he, getElem?_set_exited hw hne]
    exact or_iff_left fun h => resumed_ne_exited effects h.2

/-- A step that takes nothing from the queue leaves it as it is, sends a path while the scan is not
yet being stopped, or sends a shutdown message. No expander exits. -/
theorem Move.sends (h : Move setup state after) (hd : Disciplined state)
    (hp : state.work ≤ state.pending) (hquiet : state.owner.isStopping = true → state.pending = 0)
    (hkept : state.jobs <+: after.jobs) :
    (∀ index : ℕ, after.expanders[index]? = some Worker.exited ↔
        state.expanders[index]? = some Worker.exited) ∧
      (after.jobs = state.jobs ∨
        (∃ path, after.jobs = state.jobs ++ [.expand path] ∧ state.owner.isStopping = false) ∨
        after.jobs = state.jobs ++ [.shutdown] ∧ after.owner.isStopping = true) := by
  have hshort : ∀ {job : Job} {jobs : List Job}, state.jobs = job :: jobs →
      ¬state.jobs <+: jobs := by
    intro job jobs hj hpre
    have := hpre.length_le
    rw [hj, List.length_cons] at this
    omega
  cases h with
  | sendInput ho => exact ⟨fun _ => Iff.rfl, Or.inr (Or.inl ⟨_, rfl, by rw [ho]; rfl⟩)⟩
  | sendShutdown ho => exact ⟨fun _ => Iff.rfl, Or.inr (Or.inr ⟨rfl, rfl⟩)⟩
  | expand hw hj =>
    rw [State.jobs_resume] at hkept
    exact absurd hkept (hshort hj)
  | retire hw hj =>
    rw [State.jobs_setWorker] at hkept
    exact absurd hkept (hshort hj)
  | @act id effect effects more mid hw hperform =>
    refine ⟨exited_resume hw Worker.noConfusion hperform.frame.2.1 _, ?_⟩
    rw [State.jobs_resume]
    cases hperform with
    | @send path =>
      refine Or.inr (Or.inl ⟨path, rfl, ?_⟩)
      rw [Bool.eq_false_iff]
      intro hstop
      obtain ⟨index, rfl⟩ :=
        hd.exists_expander hw (fun _ => Effect.noConfusion) Effect.noConfusion
      exact absurd (hquiet hstop) (pending_pos_of_busy hd hp hw).ne'
    | _ => exact Or.inl rfl
  | handOver hw _ =>
    refine ⟨exited_resume hw Worker.noConfusion ?_ _, Or.inl ?_⟩
    · rfl
    · rw [State.jobs_resume]
  | _ => exact ⟨fun _ => Iff.rfl, Or.inl rfl⟩

theorem exists_of_take? {index : ℕ} (h : state.take? setup index = some after) :
    ∃ job worker, state.jobs = job :: after.jobs ∧ state.expanders[index]? = some .idle ∧
      after.expanders = state.expanders.set index worker ∧ (worker = .exited ↔ job = .shutdown) ∧
      after.owner = state.owner := by
  have hnext : state.next? setup (.take index) = some after := h
  cases occurs_of_next? hnext with
  | expand hw hj =>
    exact ⟨_, _, hj, hw, rfl, iff_of_false (resumed_ne_exited _) Job.noConfusion, rfl⟩
  | retire hw hj => exact ⟨_, _, hj, hw, rfl, iff_of_true rfl rfl, rfl⟩

namespace InOrder

variable {taken : List (ℕ × Job)}

/-- Taking a job moves it from the front of the queue to what has been taken. -/
theorem take {index : ℕ} (h : InOrder taken state)
    (htake : state.take? setup index = some after) :
    InOrder (taken ++ (state.dispatched? (.take index)).toList) after := by
  obtain ⟨job, worker, hj, hw, he, hexit, howner⟩ := exists_of_take? htake
  have hfirst : (state.dispatched? (.take index)).toList = [(index, job)] := by
    rw [State.dispatched?, hj]
    rfl
  rw [hfirst]
  constructor
  · obtain ⟨paths, messages, hall, hstop⟩ := h.ordered
    refine ⟨paths, messages, ?_, howner ▸ hstop⟩
    rw [← hall, hj, List.map_append, List.append_assoc]
    rfl
  · intro other
    rw [List.count_append, h.dismissed other, he]
    simp only [getElem?_set_exited hw Worker.noConfusion, hexit]
    by_cases hsame : index = other
    · subst hsame
      rw [hw]
      cases job <;> simp
    · simp [hsame]

theorem of_sends (h : InOrder taken state)
    (hexits : ∀ index : ℕ, after.expanders[index]? = some Worker.exited ↔
      state.expanders[index]? = some Worker.exited)
    (howner : state.owner.isStopping = true → after.owner.isStopping = true)
    (hsends : after.jobs = state.jobs ∨
      (∃ path, after.jobs = state.jobs ++ [.expand path] ∧ state.owner.isStopping = false) ∨
      after.jobs = state.jobs ++ [.shutdown] ∧ after.owner.isStopping = true) :
    InOrder taken after := by
  obtain ⟨paths, messages, hall, hstop⟩ := h.ordered
  refine ⟨?_, ?_⟩
  · rcases hsends with hsame | ⟨path, hpath, hopen⟩ | ⟨hmessage, hstopping⟩
    · exact ⟨paths, messages, by rw [hsame, hall], fun hne => howner (hstop hne)⟩
    · -- Paths are sent before the scan is stopped, so there is no message in front of this one.
      have hnone : messages = 0 := by
        by_contra hne
        rw [hopen] at hstop
        cases hstop hne
      refine ⟨paths ++ [path], 0, ?_, fun hne => absurd rfl hne⟩
      rw [hpath, ← List.append_assoc, hall, hnone, List.map_append]
      simp
    · refine ⟨paths, messages + 1, ?_, fun _ => hstopping⟩
      rw [hmessage, ← List.append_assoc, hall, List.replicate_succ', List.append_assoc]
  · intro index
    rw [h.dismissed index]
    simp only [hexits]

theorem next (h : InOrder taken state) (hd : Disciplined state)
    (hp : state.work ≤ state.pending) (hquiet : state.owner.isStopping = true → state.pending = 0)
    (hnext : state.next? setup event = some after) :
    InOrder (taken ++ (state.dispatched? event).toList) after := by
  by_cases htake : ∃ index, event = .take index
  · obtain ⟨index, rfl⟩ := htake
    exact h.take hnext
  · have hnone : state.dispatched? event = none := by
      cases event with
      | take index => exact absurd ⟨index, rfl⟩ htake
      | _ => rfl
    have hmove := move_of_next? hnext
    have hkept := jobs_prefix_of_next? hnext fun index heq => htake ⟨index, heq⟩
    obtain ⟨hexits, hsends⟩ := hmove.sends hd hp hquiet hkept
    rw [hnone, Option.toList_none, List.append_nil]
    exact h.of_sends hexits hmove.isStopping hsends

end InOrder

namespace SharedScan

variable {scan next : SharedScan} {events : List SharedEvent} {taken : List (ℕ × Job)}

theorem inOrder_initial (setup : Setup) (inputs : List Path) :
    InOrder [] (initial setup inputs).state := by
  constructor
  · exact ⟨[], 0, rfl, fun hne => absurd rfl hne⟩
  · intro index
    rw [if_neg]
    · rfl
    · intro hexited
      cases List.eq_of_mem_replicate (List.mem_of_getElem? hexited)

theorem inOrder_of_next? {event : SharedEvent} (h : InOrder taken scan.state)
    (hs : Invariant setup scan) (hnext : scan.next? setup event = some next) :
    InOrder (taken ++ (scan.dispatched? event).toList) next.state := by
  cases event with
  | count path =>
    obtain ⟨_, rfl⟩ := count?_eq_some_iff.mp hnext
    exact (List.append_nil taken).symm ▸ ⟨h.ordered, h.dismissed⟩
  | send index =>
    obtain ⟨path, hpath, rfl⟩ := exists_of_send? hnext
    have hopen := hs.isOpen_of_call (List.ne_nil_of_mem (List.mem_of_getElem? hpath))
    rw [dispatched?, Option.toList_none, List.append_nil]
    have hstopping : scan.state.owner.isStopping = false := by
      rw [Bool.eq_false_iff]
      intro hstop
      rw [Owner.isOpen_eq_false hstop] at hopen
      cases hopen
    exact h.of_sends (fun _ => Iff.rfl) (fun hstop => hstop)
      (Or.inr (Or.inl ⟨path, rfl, hstopping⟩))
  | step step =>
    obtain ⟨hstep, _⟩ := exists_of_step? hnext
    exact h.next hs.disciplined hs.work_le hs.shutdown.quiet hstep

theorem inOrder_of_run? (h : InOrder taken scan.state) (hs : Invariant setup scan)
    (hrun : scan.run? setup events = some next) :
    InOrder (taken ++ scan.dispatched setup events) next.state := by
  induction events generalizing scan taken with
  | nil =>
    cases hrun
    rw [SharedScan.dispatched, List.append_nil]
    exact h
  | cons event events ih =>
    obtain ⟨between, hnext, hrest⟩ := run?_cons_eq_some_iff.mp hrun
    rw [SharedScan.dispatched, hnext, ← List.append_assoc]
    exact ih (inOrder_of_next? h hs hnext) (hs.preserved hnext) hrest

/-- What the count says in a state about the state and about what follows. -/
structure Counts (setup : Setup) (scan : SharedScan) : Prop where
  pending_eq : scan.state.pending = scan.state.queuedPaths.length + scan.state.expandings +
    (scan.state.halfSent + scan.calls.length)
  /-- The count is positive whenever one is to be taken off it. -/
  pending_pos_of_done : ∀ id effects,
    scan.state.worker? id = some (.busy (.done :: effects)) → 0 < scan.state.pending
  lowered : ∀ event next, scan.next? setup event = some next →
    scan.state.pending ≤ next.state.pending ∨
      ∃ index, event = .step (.act (.expander index)) ∧
        scan.state.worker? (.expander index) = some (.busy [.done]) ∧
        next.state.pending + 1 = scan.state.pending
  pending_pos : ∀ path, scan.Holds path → 0 < scan.state.pending
  pending_pos_of_expanding : ∀ effects, .busy effects ∈ scan.state.expanders →
    0 < scan.state.pending
  /-- A path that is taken later, while no input is added, comes from one that is counted now. -/
  pending_pos_of_later : ∀ events next, scan.run? setup events = some next →
    scan.state.owner.paths = 0 → (∀ path, .count path ∉ events) →
    ∀ index path, (index, .expand path) ∈ scan.dispatched setup events → 0 < scan.state.pending

theorem Invariant.counts (h : Invariant setup scan) : scan.Counts setup where
  pending_eq := h.pending_eq_sum
  pending_pos_of_done := fun _ _ hw => h.pending_pos_of_done hw
  lowered := fun _ _ hnext => h.lowered hnext
  pending_pos := fun _ hpath => h.pending_pos hpath
  pending_pos_of_expanding := fun _ hmem => h.pending_pos_of_busy hmem
  pending_pos_of_later := by
    intro events next hrun hnone hevents index path hmem
    rw [Nat.pos_iff_ne_zero]
    intro hzero
    cases (h.stays_atRest hnone hzero hevents hrun).2 _ hmem

/-- From the first shutdown message on no path is left, and none comes up any more. -/
theorem Invariant.atRest_of_isStopping (h : Invariant setup scan)
    (hstop : scan.state.owner.isStopping = true) (hrun : scan.run? setup events = some next) :
    next.AtRest ∧ ∀ taken ∈ scan.dispatched setup events, taken.2 = .shutdown := by
  have hclosing := Owner.isOpen_eq_false hstop
  exact h.stays_atRest (Owner.paths_of_isStopping hstop) (h.shutdown.quiet hstop)
    (count_not_mem_of_run? hclosing hrun) hrun

/-- However many inputs are added side by side, the pending count is exact, never falls below zero,
and is positive while a path is still to come. Once the owner has seen it at zero, no path is left
and none comes up any more; so all paths are taken before the first shutdown message, every expander
takes one of these messages, and nothing is left on the queue when closing has returned. -/
theorem pending_covers_all_paths
    (hrun : (initial setup inputs).run? setup events = some scan) :
    scan.Counts setup ∧
      (scan.state.owner.isStopping = true → scan.AtRest ∧
        ∀ later next, scan.run? setup later = some next →
          next.AtRest ∧ ∀ taken ∈ scan.dispatched setup later, taken.2 = .shutdown) ∧
      InOrder ((initial setup inputs).dispatched setup events) scan.state ∧
      (scan.state.owner = .closed → scan.state.jobs = [] ∧
        ∀ index < setup.config.expanders,
          ((initial setup inputs).dispatched setup events).count (index, .shutdown) = 1) := by
  have hs := (invariant_initial setup inputs).run hrun
  have horder :=
    inOrder_of_run? (inOrder_initial setup inputs) (invariant_initial setup inputs) hrun
  rw [List.nil_append] at horder
  refine ⟨hs.counts, ?_, horder, ?_⟩
  · intro hstop
    refine ⟨hs.atRest (hs.shutdown.quiet hstop), ?_⟩
    intro later next hlater
    exact hs.atRest_of_isStopping hstop hlater
  · intro hclosed
    refine ⟨hs.shutdown.jobs_eq_nil hs.work_le hs.staffed hclosed, ?_⟩
    intro index hindex
    have hlt : index < scan.state.expanders.length := by
      rw [hs.staffed.size]
      exact hindex
    have hexited := expandersExited_iff.mp (hs.shutdown.expanders_gone (Or.inr hclosed)) _
      (List.getElem_mem hlt)
    rw [horder.dismissed index, List.getElem?_eq_getElem hlt, hexited, if_pos rfl]

/-- The directory `/d` with the file `a` and the link `l` to it. -/
def linkedPair : Setup where
  decoder := Gzip.member
  tree := {
    nodes := [([[100]], .directory), ([[97], [100]], .file [1]), ([[108], [100]], .link [97])] }
  config := { expanders := 2, decompressors := 1 }
  consumers := 2

/-- Two calls add a directory and a file in it side by side; the call that counts last sends
first. -/
def sharedPairEvents : List SharedEvent :=
  [.count [47, 100], .count [47, 100, 47, 97], .send 1, .step (.take 0), .send 0,
    .step (.act (.expander 0)), .step (.take 1), .step (.act (.expander 1)), .step .own,
    .step (.act (.expander 1)), .step (.act (.expander 0)), .step (.take 0),
    .step (.act (.expander 1)), .step (.act (.expander 1)), .step (.act (.expander 1)),
    .step (.take 1), .step (.act (.expander 0)), .step (.act (.expander 0)),
    .step (.act (.expander 1)), .step (.act (.expander 1)), .step .own, .step .own, .step (.take 1),
    .step .own, .step (.take 0), .step .own, .step .own, .step (.leave 0), .step .own]

theorem pending_covers_all_paths_sharedPair : ∃ scan,
    (initial linkedPair []).run? linkedPair sharedPairEvents = some scan ∧
      scan.state.owner = .closed ∧ scan.Counts linkedPair ∧ scan.state.jobs = [] ∧
      ∀ index < 2, ((initial linkedPair []).dispatched linkedPair sharedPairEvents).count
        (index, .shutdown) = 1 := by
  have hclosed : ((initial linkedPair []).run? linkedPair sharedPairEvents).any
      (fun scan => scan.state.isClosed) = true := by cbv
  obtain ⟨scan, hrun, hc⟩ := (Option.any_eq_true _ _).mp hclosed
  have ho := isClosed_iff.mp hc
  obtain ⟨hcounts, _, _, hend⟩ := pending_covers_all_paths hrun
  exact ⟨scan, hrun, ho, hcounts, hend ho⟩

end SharedScan

end PlaneArchive.Scan
