import Mathlib
import PlaneArchive.Proofs.Scan.Shutdown

/-! # The outcome does not depend on the schedule

However the workers, the owner and the consumers interleave, once closing has returned and the
output is drained, the consumers have received what the sequential scan yields, and as much has
been dropped.
-/
namespace PlaneArchive.Scan

/-- What holds in every state that some interleaving leads to. -/
structure Invariant (setup : Setup) (inputs : List Path) (state : State) : Prop where
  /-- Whatever the paths that are left will yield, the inputs yield that and what is accounted
  for. -/
  conserved : ∀ later, Yields setup.decoder setup.tree (state.account setup.decoder).1 later →
    Yields setup.decoder setup.tree ↑inputs ((state.account setup.decoder).2 + later)
  disciplined : Disciplined state
  pending_eq : state.pending = state.work
  shutdown : Shutdown setup state
  emitted_eq : state.emitted = state.received.length + state.output.length

variable {setup : Setup} {inputs : List Path} {state after : State}

theorem load_initial {M : Type*} [AddCommMonoid M] (f : Effect → M) (setup : Setup)
    (inputs : List Path) : (initial setup inputs).load f = 0 := by
  simp [State.load, poolLoad, initial, Worker.effects]

theorem account_initial (setup : Setup) (inputs : List Path) :
    (initial setup inputs).account setup.decoder = (↑inputs, 0) := by
  rw [State.account, load_initial, add_zero]
  refine Prod.ext ?_ rfl
  exact add_zero (↑inputs : Multiset Path)

theorem invariant_initial (setup : Setup) (inputs : List Path) :
    Invariant setup inputs (initial setup inputs) where
  conserved := by
    intro later h
    rw [account_initial] at h ⊢
    rw [zero_add]
    exact h
  disciplined := by
    constructor
    · intro effects hmem
      cases List.eq_of_mem_replicate hmem
    · intro effects hmem
      cases List.eq_of_mem_replicate hmem
  pending_eq := by
    rw [State.work, load_initial]
    rfl
  shutdown := {
    quiet := fun h => by cases h
    expanders_gone := fun h => by rcases h with h | h <;> cases h
    decompressors_gone := fun h => by cases h
    left := fun hmem => by cases List.eq_of_mem_replicate hmem
    pool := List.length_replicate
    emptied := fun _ => rfl }
  emitted_eq := rfl

theorem Move.emitted_eq (h : Move setup state after)
    (hs : state.emitted = state.received.length + state.output.length) :
    after.emitted = after.received.length + after.output.length := by
  cases h with
  | expand _ _ => exact hs
  | @act id effect effects more mid _ hp =>
    have hmid : mid.emitted = mid.received.length + mid.output.length := by
      cases hp with
      | emit _ =>
        rw [List.length_append, List.length_singleton]
        dsimp only
        omega
      | _ => exact hs
    cases id <;> exact hmid
  | @handOver id record effects consumer _ _ =>
    have hmid : state.emitted + 1 =
        (state.received ++ [(consumer, record)]).length + state.output.length := by
      rw [List.length_append, List.length_singleton]
      omega
    cases id <;> exact hmid
  | receive ho _ =>
    rw [ho, List.length_cons] at hs
    rw [List.length_append, List.length_singleton]
    dsimp only
    omega
  | _ => exact hs

/-- An expanded path only changes who accounts for what it yields. -/
theorem Move.conserved (h : Move setup state after)
    (hs : ∀ later, Yields setup.decoder setup.tree (state.account setup.decoder).1 later →
      Yields setup.decoder setup.tree ↑inputs ((state.account setup.decoder).2 + later)) :
    ∀ later, Yields setup.decoder setup.tree (after.account setup.decoder).1 later →
      Yields setup.decoder setup.tree ↑inputs ((after.account setup.decoder).2 + later) := by
  intro later hlater
  rcases h.account with hsame | ⟨path, rest, total, hbefore, hafter⟩
  · rw [hsame] at hlater ⊢
    exact hs later hlater
  · rw [hafter] at hlater ⊢
    have hexpanded := hlater.expand path
    rw [hbefore] at hs
    have hinputs := hs _ hexpanded
    rw [add_comm _ total, add_assoc]
    exact hinputs

theorem Move.invariant (h : Move setup state after) (hs : Invariant setup inputs state) :
    Invariant setup inputs after where
  conserved := h.conserved hs.conserved
  disciplined := h.disciplined hs.disciplined
  pending_eq := h.pending_eq hs.pending_eq
  shutdown := h.shutdown hs.disciplined hs.pending_eq.ge hs.shutdown
  emitted_eq := h.emitted_eq hs.emitted_eq

theorem reachable_invariant (h : Reachable setup inputs state) :
    Invariant setup inputs state := by
  induction h with
  | start => exact invariant_initial setup inputs
  | step event _ hnext ih => exact (move_of_next? hnext).invariant ih

theorem load_of_exited {M : Type*} [AddCommMonoid M] (f : Effect → M)
    (he : state.expandersExited = true) (hd : state.decompressorsExited = true) :
    state.load f = 0 := by
  have hpool : ∀ workers : List Worker, (∀ worker ∈ workers, worker = .exited) →
      poolLoad f workers = 0 := by
    intro workers hall
    refine List.sum_eq_zero fun load hmem => ?_
    obtain ⟨worker, hworker, rfl⟩ := List.mem_map.mp hmem
    rw [hall worker hworker]
    rfl
  rw [State.load, hpool _ (expandersExited_iff.mp he), hpool _ (decompressorsExited_iff.mp hd),
    add_zero]

/-- The records that have come out, received or not, and how many units of work were dropped. -/
def State.produced (state : State) : ScanOutcome :=
  ⟨state.received.map (·.2) ++ state.output, state.skipped⟩

/-- Once closing has returned, everything is accounted for by what has come out. -/
theorem account_of_closed (hs : Invariant setup inputs state) (hc : state.isClosed = true) :
    state.account setup.decoder = (0, state.produced.tally) := by
  have hclosed := isClosed_iff.mp hc
  have hexpanders := hs.shutdown.expanders_gone (Or.inr hclosed)
  have hdecompressors := hs.shutdown.decompressors_gone hclosed
  have hgzip := hs.shutdown.emptied hdecompressors
  have hpending := hs.shutdown.quiet (by rw [hclosed]; rfl)
  have hjobs : (state.jobs.map Job.paths).sum = 0 := by
    refine List.sum_eq_zero fun paths hmem => ?_
    obtain ⟨job, hjob, rfl⟩ := List.mem_map.mp hmem
    cases job with
    | expand path => exact absurd hpending (pending_pos_of_mem_jobs hs.pending_eq.ge hjob).ne'
    | shutdown => rfl
  rw [State.account, load_of_exited _ hexpanders hdecompressors, add_zero]
  refine Prod.ext ?_ ?_
  · change state.owner.paths + (state.jobs.map Job.paths).sum = 0
    rw [hjobs, hclosed]
    rfl
  · change state.delivered setup.decoder = _
    rw [State.delivered, hgzip, deliveredBy, List.map_nil, List.sum_nil, add_zero, Multiset.coe_add]
    rfl

theorem account_of_drained (hs : Invariant setup inputs state) (hd : state.isDrained = true) :
    state.account setup.decoder = (0, state.outcome.tally) := by
  obtain ⟨hclosed, houtput⟩ := isDrained_iff.mp hd
  have hproduced : state.produced = state.outcome := by
    rw [State.produced, houtput, List.append_nil]
    rfl
  rw [account_of_closed hs (isClosed_iff.mpr hclosed), hproduced]

/-- Nothing is left to be expanded then, so the inputs yield what has been received and dropped. -/
theorem yields_of_drained (hs : Invariant setup inputs state) (hd : state.isDrained = true) :
    Yields setup.decoder setup.tree ↑inputs state.outcome.tally := by
  have hyields := hs.conserved 0
  rw [account_of_drained hs hd, add_zero] at hyields
  exact hyields .nothing

theorem outcome_of_drained (hr : Reachable setup inputs state) (hd : state.isDrained = true) :
    state.outcome.records.Perm (run setup.decoder setup.tree inputs).records ∧
      state.outcome.skipped = (run setup.decoder setup.tree inputs).skipped := by
  have htally := tally_run (yields_of_drained (reachable_invariant hr) hd)
  have hrecords : ((run setup.decoder setup.tree inputs).records : Multiset FileRecord) =
      state.outcome.records := congrArg Prod.fst htally
  exact ⟨(Multiset.coe_eq_coe.mp hrecords).symm, (congrArg Prod.snd htally).symm⟩

theorem reachable_of_run? {events : List Event} (hr : Reachable setup inputs state)
    (h : state.run? setup events = some after) : Reachable setup inputs after := by
  induction events generalizing state with
  | nil =>
    cases h
    exact hr
  | cons event events ih =>
    obtain ⟨next, hnext, hrest⟩ := run?_cons_eq_some_iff.mp h
    exact ih (.step event hr hnext) hrest

theorem exists_run?_of_reachable (h : Reachable setup inputs state) :
    ∃ events, (initial setup inputs).run? setup events = some state := by
  induction h with
  | start => exact ⟨[], rfl⟩
  | step event _ hnext ih =>
    obtain ⟨events, hrun⟩ := ih
    refine ⟨events ++ [event], ?_⟩
    rw [State.run?, List.foldlM_append, ← State.run?, hrun]
    change State.run? setup _ [event] = _
    exact run?_cons_eq_some_iff.mpr ⟨_, hnext, rfl⟩

end PlaneArchive.Scan
