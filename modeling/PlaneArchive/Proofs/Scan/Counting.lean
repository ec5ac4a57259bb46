import PlaneArchive.Proofs.Scan.Progress
import PlaneArchive.Scan.Shared

/-! # The pending count tells when nothing is left

The count is the number of paths that are queued, that are being expanded, or that have been counted
and not yet sent, no matter how many inputs are added side by side. So it is positive as long as
there is a path that others may come from, and once it is zero and no input is left, nothing happens
any more but the end of the scan.
-/
namespace PlaneArchive.Scan

variable {setup : Setup} {inputs : List Path} {state after : State}

/-- How far closing has come: inputs may still be added, the owner waits, or it winds up. -/
def Owner.stage : Owner → ℕ
  | .adding _ | .sending _ _ => 0
  | .waiting => 1
  | .stopping _ | .joiningExpanders | .joiningDecompressors | .closed => 2

section Stage

variable {owner : Owner}

theorem Owner.isOpen_iff : owner.isOpen = true ↔ owner.stage = 0 := by
  cases owner <;> simp [isOpen, stage]

theorem Owner.eq_waiting_iff : owner = .waiting ↔ owner.stage = 1 := by
  cases owner <;> simp [stage]

theorem Owner.isStopping_iff : owner.isStopping = true ↔ owner.stage = 2 := by
  cases owner <;> simp [isStopping, stage]

theorem Owner.stage_le (owner : Owner) : owner.stage ≤ 2 := by
  cases owner <;> simp [stage]

theorem Owner.isOpen_eq_false (h : owner.isStopping = true) : owner.isOpen = false := by
  rw [isStopping_iff] at h
  rw [Bool.eq_false_iff, Ne, isOpen_iff]
  omega

end Stage

/-- Closing goes on stage by stage, and never back. -/
theorem Move.stage (h : Move setup state after) :
    state.owner.stage ≤ after.owner.stage ∧ after.owner.stage ≤ state.owner.stage + 1 := by
  have hkeep : after.owner = state.owner →
      state.owner.stage ≤ after.owner.stage ∧ after.owner.stage ≤ state.owner.stage + 1 := by
    intro hsame
    rw [hsame]
    exact ⟨Nat.le_refl _, Nat.le_succ _⟩
  cases h with
  | countInput ho => simp [ho, Owner.stage]
  | sendInput ho => simp [ho, Owner.stage]
  | wait ho => simp [ho, Owner.stage]
  | stop ho _ => simp [ho, Owner.stage]
  | sendShutdown ho => simp [ho, Owner.stage]
  | join ho => simp [ho, Owner.stage]
  | joinExpanders ho _ => simp [ho, Owner.stage]
  | joinDecompressors ho _ => simp [ho, Owner.stage]
  | act _ hp => exact hkeep (by rw [State.owner_resume, hp.frame.1])
  | handOver _ _ => exact hkeep (by rw [State.owner_resume])
  | _ => exact hkeep rfl

/-- Closing begins with waiting for all work. -/
theorem Move.isOpen (h : Move setup state after) (ho : state.owner.isOpen = true) :
    after.owner.isOpen = true ∨ after.owner = .waiting := by
  have hstage := h.stage
  rw [Owner.isOpen_iff] at ho ⊢
  rw [Owner.eq_waiting_iff]
  omega

/-- A scan that is being closed is not opened again. -/
theorem Move.not_isOpen (h : Move setup state after) (ho : state.owner.isOpen = false) :
    after.owner.isOpen = false := by
  have hstage := h.stage
  rw [Bool.eq_false_iff, Ne, Owner.isOpen_iff] at ho ⊢
  omega

/-- A scan that is being stopped goes on to be. -/
theorem Move.isStopping (h : Move setup state after) (hstop : state.owner.isStopping = true) :
    after.owner.isStopping = true := by
  have hstage := h.stage
  have hlast := after.owner.stage_le
  rw [Owner.isStopping_iff] at hstop ⊢
  omega

theorem exists_performs_of_act? {id : WorkerId} (h : state.act? setup id = some after) :
    ∃ effect effects more mid, state.worker? id = some (.busy (effect :: effects)) ∧
      Performs setup state effect mid more ∧ after = mid.resume id (more ++ effects) := by
  have hnext : state.next? setup (.act id) = some after := h
  cases occurs_of_next? hnext with
  | act hw hp => exact ⟨_, _, _, _, hw, hp, rfl⟩

theorem pending_le_of_next? {event : Event} (h : state.next? setup event = some after)
    (hevent : ∀ id, event ≠ .act id) : state.pending ≤ after.pending := by
  cases occurs_of_next? h with
  | own h => exact (grows_of_own? h).2
  | @act id => exact absurd rfl (hevent id)
  | handOver _ _ _ => rw [State.pending_resume]
  | _ => exact Nat.le_refl _

/-- Whoever is about to take a path off the count is an expander, and has nothing else to do. -/
theorem exists_expander_of_done (hs : Disciplined state) {id : WorkerId} {effects : List Effect}
    (hw : state.worker? id = some (.busy (.done :: effects))) :
    effects = [] ∧ ∃ index, id = .expander index := by
  obtain ⟨index, rfl⟩ := hs.exists_expander hw (fun _ => Effect.noConfusion) Effect.noConfusion
  rcases (hs.expanding _ (List.mem_of_getElem? hw)).tail with ⟨_, rfl⟩ | ⟨hne, _⟩
  · exact ⟨rfl, index, rfl⟩
  · exact absurd rfl hne

/-- Only an expander that is done with its path lowers the count, and never below zero. -/
theorem pending_of_next? {event : Event} (hs : Disciplined state)
    (hp : state.work ≤ state.pending) (h : state.next? setup event = some after) :
    state.pending ≤ after.pending ∨ ∃ index, event = .act (.expander index) ∧
      state.worker? (.expander index) = some (.busy [.done]) ∧
        after.pending + 1 = state.pending := by
  by_cases hevent : ∃ id, event = .act id
  · obtain ⟨id, rfl⟩ := hevent
    obtain ⟨effect, effects, more, mid, hw, hperform, rfl⟩ := exists_performs_of_act? h
    rw [State.pending_resume]
    cases hperform with
    | count => exact Or.inl (Nat.le_succ _)
    | done =>
      obtain ⟨rfl, index, rfl⟩ := exists_expander_of_done hs hw
      have hpos := pending_pos_of_busy hs hp hw
      exact Or.inr ⟨index, rfl, hw, Nat.succ_pred_eq_of_pos hpos⟩
    | _ => exact Or.inl (Nat.le_refl _)
  · exact Or.inl (pending_le_of_next? h fun id hid => hevent ⟨id, hid⟩)

/-- The job that an expander takes at an event, if it does. -/
def State.dispatched? (state : State) : Event → Option (ℕ × Job)
  | .take index => state.jobs.head?.map (index, ·)
  | _ => none

namespace SharedScan

/-- What holds in every state that a shared scan comes to. -/
structure Invariant (setup : Setup) (scan : SharedScan) : Prop where
  disciplined : Disciplined scan.state
  pending_eq : scan.state.pending = scan.state.work + scan.calls.length
  shutdown : Shutdown setup scan.state
  staffed : Staffed setup scan.state
  isOpen_of_call : scan.calls ≠ [] → scan.state.owner.isOpen = true

variable {scan next : SharedScan} {event : SharedEvent} {events : List SharedEvent} {path : Path}

theorem run?_cons_eq_some_iff :
    scan.run? setup (event :: events) = some next ↔
      ∃ between, scan.next? setup event = some between ∧ between.run? setup events = some next := by
  rw [run?, List.foldlM_cons]
  exact Option.bind_eq_some_iff

theorem count?_eq_some_iff :
    scan.count? path = some next ↔ scan.state.owner.isOpen = true ∧
      next = ⟨{ scan.state with pending := scan.state.pending + 1 }, scan.calls ++ [path]⟩ := by
  rw [count?]
  split
  · next ho => simp [ho, eq_comm]
  · next ho => simp [ho]

theorem exists_of_send? {index : ℕ} (h : scan.send? index = some next) :
    ∃ path, scan.calls[index]? = some path ∧
      next = ⟨{ scan.state with jobs := scan.state.jobs ++ [.expand path] },
        scan.calls.eraseIdx index⟩ := by
  rw [send?] at h
  split at h
  · next path hpath =>
    cases h
    exact ⟨path, hpath, rfl⟩
  · cases h

theorem exists_of_step? {step : Event} (h : scan.step? setup step = some next) :
    scan.state.next? setup step = some next.state ∧ next.calls = scan.calls ∧
      (next.state.owner = .waiting → next.calls = []) := by
  rw [step?] at h
  split at h
  · next state hnext =>
    split at h
    · cases h
    · next hwait =>
      cases h
      refine ⟨hnext, rfl, ?_⟩
      intro howner
      by_contra hcalls
      exact hwait ⟨howner, hcalls⟩
  · cases h

theorem invariant_initial (setup : Setup) (inputs : List Path) :
    Invariant setup (initial setup inputs) where
  disciplined := (Scan.invariant_initial setup inputs).disciplined
  pending_eq := (Scan.invariant_initial setup inputs).pending_eq
  shutdown := (Scan.invariant_initial setup inputs).shutdown
  staffed := staffed_initial setup inputs
  isOpen_of_call := fun h => absurd rfl h

theorem Invariant.work_le (h : Invariant setup scan) : scan.state.work ≤ scan.state.pending := by
  rw [h.pending_eq]
  exact Nat.le_add_right _ _

/-- A call that counts its path adds a path to be sent. -/
theorem Invariant.count (h : Invariant setup scan) (hcount : scan.count? path = some next) :
    Invariant setup next := by
  obtain ⟨hopen, rfl⟩ := count?_eq_some_iff.mp hcount
  refine ⟨⟨h.disciplined.expanding, h.disciplined.inflating⟩, ?_, ?_, ?_, fun _ => hopen⟩
  · have hpending := h.pending_eq
    change scan.state.pending + 1 = scan.state.work + (scan.calls ++ [path]).length
    rw [List.length_append, List.length_singleton]
    omega
  · exact { h.shutdown with
      quiet := fun hstop => by
        rw [Owner.isOpen_eq_false hstop] at hopen
        cases hopen }
  · exact ⟨h.staffed.size, h.staffed.messages, h.staffed.occupied⟩

/-- A call that sends its path moves it to the queue. -/
theorem Invariant.send {index : ℕ} (h : Invariant setup scan)
    (hsend : scan.send? index = some next) : Invariant setup next := by
  obtain ⟨path, hpath, rfl⟩ := exists_of_send? hsend
  have hlt := (List.getElem?_eq_some_iff.mp hpath).1
  have hopen : scan.state.owner.isOpen = true := by
    refine h.isOpen_of_call ?_
    intro hnil
    rw [hnil] at hlt
    exact Nat.not_lt_zero _ hlt
  refine ⟨⟨h.disciplined.expanding, h.disciplined.inflating⟩, ?_, ?_, ?_, fun _ => hopen⟩
  · have hpending := h.pending_eq
    simp only [State.work, State.load, List.map_append, List.sum_append, List.map_singleton,
      List.sum_singleton, Job.weight, List.length_eraseIdx_of_lt hlt] at hpending ⊢
    omega
  · exact ⟨h.shutdown.quiet, h.shutdown.expanders_gone, h.shutdown.decompressors_gone,
      h.shutdown.left, h.shutdown.pool, h.shutdown.emptied⟩
  · refine ⟨h.staffed.size, ?_, h.staffed.occupied⟩
    rw [List.map_append, List.sum_append]
    exact h.staffed.messages

theorem Invariant.step {step : Event} (h : Invariant setup scan)
    (hstep : scan.step? setup step = some next) : Invariant setup next := by
  obtain ⟨hnext, hcalls, hwait⟩ := exists_of_step? hstep
  have hmove := move_of_next? hnext
  refine ⟨hmove.disciplined h.disciplined, ?_, hmove.shutdown h.disciplined h.work_le h.shutdown,
    hmove.staffed h.staffed, ?_⟩
  · have hpending := h.pending_eq
    have hmoved := hmove.pending_add_work h.work_le
    rw [hcalls]
    omega
  · intro hsome
    rcases hmove.isOpen (h.isOpen_of_call (hcalls ▸ hsome)) with hopen | hclosing
    · exact hopen
    · exact absurd (hwait hclosing) hsome

theorem Invariant.preserved (h : Invariant setup scan)
    (hnext : scan.next? setup event = some next) : Invariant setup next := by
  cases event with
  | count path => exact h.count hnext
  | send index => exact h.send hnext
  | step step => exact h.step hnext

theorem Invariant.run (h : Invariant setup scan) (hrun : scan.run? setup events = some next) :
    Invariant setup next := by
  induction events generalizing scan with
  | nil =>
    cases hrun
    exact h
  | cons event events ih =>
    obtain ⟨between, hnext, hrest⟩ := run?_cons_eq_some_iff.mp hrun
    exact ih (h.preserved hnext) hrest

def dispatched? (scan : SharedScan) : SharedEvent → Option (ℕ × Job)
  | .step event => scan.state.dispatched? event
  | .count _ | .send _ => none

/-- The jobs that expanders take in a run, in the order in which they take them. -/
def dispatched (setup : Setup) (scan : SharedScan) : List SharedEvent → List (ℕ × Job)
  | [] => []
  | event :: events =>
    (scan.dispatched? event).toList ++
      match scan.next? setup event with
      | some next => next.dispatched setup events
      | none => []

/-- Somebody has this path and will see to it. -/
inductive Holds (scan : SharedScan) (path : Path) : Prop where
  | queued (h : .expand path ∈ scan.state.jobs)
  | called (h : path ∈ scan.calls)
  | sending {inputs : List Path} (h : scan.state.owner = .sending path inputs)
  | found {effects : List Effect} (hmem : .busy effects ∈ scan.state.expanders)
      (h : .count path ∈ effects ∨ .send path ∈ effects)

/-- No path is queued, being expanded or half sent. -/
structure AtRest (scan : SharedScan) : Prop where
  pending_eq : scan.state.pending = 0
  none_queued : ∀ path, .expand path ∉ scan.state.jobs
  none_expanded : ∀ effects, .busy effects ∉ scan.state.expanders
  none_called : scan.calls = []

theorem Invariant.pending_pos_of_busy (h : Invariant setup scan) {effects : List Effect}
    (hmem : .busy effects ∈ scan.state.expanders) : 0 < scan.state.pending := by
  obtain ⟨index, hindex⟩ := List.getElem?_of_mem hmem
  have hw : scan.state.worker? (.expander index) = some (.busy effects) := hindex
  exact Scan.pending_pos_of_busy h.disciplined h.work_le hw

theorem Invariant.pending_pos (h : Invariant setup scan) (hpath : scan.Holds path) :
    0 < scan.state.pending := by
  cases hpath with
  | queued hmem => exact pending_pos_of_mem_jobs h.work_le hmem
  | called hmem =>
    have := List.length_pos_of_mem hmem
    have := h.pending_eq
    omega
  | sending ho =>
    have hpending := h.pending_eq
    rw [State.work, ho, Owner.weight] at hpending
    omega
  | found hmem _ => exact h.pending_pos_of_busy hmem

theorem Invariant.pending_eq_sum (h : Invariant setup scan) :
    scan.state.pending = scan.state.queuedPaths.length + scan.state.expandings +
      (scan.state.halfSent + scan.calls.length) := by
  rw [h.pending_eq, work_eq h.disciplined, Nat.add_assoc]

theorem Invariant.pending_pos_of_done (h : Invariant setup scan) {id : WorkerId}
    {effects : List Effect} (hw : scan.state.worker? id = some (.busy (.done :: effects))) :
    0 < scan.state.pending := by
  obtain ⟨_, index, rfl⟩ := exists_expander_of_done h.disciplined hw
  exact Scan.pending_pos_of_busy h.disciplined h.work_le hw

theorem Invariant.lowered (h : Invariant setup scan) (hnext : scan.next? setup event = some next) :
    scan.state.pending ≤ next.state.pending ∨
      ∃ index, event = .step (.act (.expander index)) ∧
        scan.state.worker? (.expander index) = some (.busy [.done]) ∧
        next.state.pending + 1 = scan.state.pending := by
  cases event with
  | count path =>
    obtain ⟨_, rfl⟩ := count?_eq_some_iff.mp hnext
    exact Or.inl (Nat.le_succ _)
  | send index =>
    obtain ⟨path, _, rfl⟩ := exists_of_send? hnext
    exact Or.inl (Nat.le_refl _)
  | step step =>
    obtain ⟨hstep, _⟩ := exists_of_step? hnext
    rcases pending_of_next? h.disciplined h.work_le hstep with hle | ⟨index, rfl, hw, hlowered⟩
    · exact Or.inl hle
    · exact Or.inr ⟨index, rfl, hw, hlowered⟩

theorem Invariant.atRest (h : Invariant setup scan) (hzero : scan.state.pending = 0) :
    scan.AtRest where
  pending_eq := hzero
  none_queued := fun _ hmem => absurd hzero (h.pending_pos (.queued hmem)).ne'
  none_expanded := fun _ hmem => absurd hzero (h.pending_pos_of_busy hmem).ne'
  none_called := by
    have := h.pending_eq
    exact List.length_eq_zero_iff.mp (by omega)

/-- At rest, and with no input left, the next step changes nothing of that and takes no path. -/
theorem Invariant.idle (h : Invariant setup scan) (hnone : scan.state.owner.paths = 0)
    (hzero : scan.state.pending = 0) (hevent : ∀ path, event ≠ .count path)
    (hnext : scan.next? setup event = some next) :
    next.state.owner.paths = 0 ∧ next.state.pending = 0 ∧
      ∀ taken ∈ scan.dispatched? event, taken.2 = .shutdown := by
  have hrest := h.atRest hzero
  cases event with
  | count path => exact absurd rfl (hevent path)
  | send index =>
    obtain ⟨path, hpath, _⟩ := exists_of_send? hnext
    rw [hrest.none_called] at hpath
    cases hpath
  | step step =>
    obtain ⟨hstep, _⟩ := exists_of_step? hnext
    obtain ⟨hpaths, hpending⟩ := (move_of_next? hstep).idle h.disciplined h.work_le hnone hzero
    refine ⟨hpaths, hpending, ?_⟩
    rintro ⟨index, job⟩ htaken
    cases step with
    | take index =>
      obtain ⟨_, hhead, htaken⟩ := Option.map_eq_some_iff.mp htaken
      cases htaken
      cases job with
      | expand path => exact absurd (List.mem_of_head? hhead) (hrest.none_queued path)
      | shutdown => rfl
    | _ => cases htaken

/-- A scan at rest stays at rest, and takes no path, until another input is added. -/
theorem Invariant.stays_atRest (h : Invariant setup scan) (hnone : scan.state.owner.paths = 0)
    (hzero : scan.state.pending = 0) (hevents : ∀ path, .count path ∉ events)
    (hrun : scan.run? setup events = some next) :
    next.AtRest ∧ ∀ taken ∈ scan.dispatched setup events, taken.2 = .shutdown := by
  induction events generalizing scan with
  | nil =>
    cases hrun
    exact ⟨h.atRest hzero, fun _ hmem => by cases hmem⟩
  | cons event events ih =>
    obtain ⟨between, hnext, hrest⟩ := run?_cons_eq_some_iff.mp hrun
    obtain ⟨hpaths, hpending, hstep⟩ := h.idle hnone hzero
      (fun path heq => hevents path (heq ▸ List.mem_cons_self)) hnext
    obtain ⟨hatRest, hlater⟩ := ih (h.preserved hnext) hpaths hpending
      (fun path hmem => hevents path (List.mem_cons_of_mem _ hmem)) hrest
    refine ⟨hatRest, ?_⟩
    intro taken hmem
    rw [dispatched, hnext] at hmem
    rcases List.mem_append.mp hmem with hfirst | hrest
    · exact hstep taken (Option.mem_toList.mp hfirst)
    · exact hlater taken hrest

/-- No call begins once the scan is being closed. -/
theorem count_not_mem_of_run? (ho : scan.state.owner.isOpen = false)
    (hrun : scan.run? setup events = some next) : ∀ path, .count path ∉ events := by
  induction events generalizing scan with
  | nil => exact fun _ hmem => by cases hmem
  | cons event events ih =>
    obtain ⟨between, hnext, hrest⟩ := run?_cons_eq_some_iff.mp hrun
    have hclosed : between.state.owner.isOpen = false ∧ ∀ path, event ≠ .count path := by
      cases event with
      | count path =>
        have hopen := (count?_eq_some_iff.mp hnext).1
        rw [ho] at hopen
        cases hopen
      | send index =>
        obtain ⟨path, _, rfl⟩ := exists_of_send? hnext
        exact ⟨ho, fun _ heq => by cases heq⟩
      | step step =>
        obtain ⟨hstep, _⟩ := exists_of_step? hnext
        exact ⟨(move_of_next? hstep).not_isOpen ho, fun _ heq => by cases heq⟩
    intro path hmem
    rcases List.mem_cons.mp hmem with heq | hlater
    · exact hclosed.2 path heq.symm
    · exact ih hclosed.1 hrest path hlater

end SharedScan

end PlaneArchive.Scan
