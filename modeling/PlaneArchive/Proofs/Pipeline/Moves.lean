import PlaneArchive.Pipeline.Machine
import PlaneArchive.Proofs.Scan.Progress

/-! # What one step of the pipeline can do

A step of the scan hands over one record or none. The consumer and the caller do the rest.
-/
namespace PlaneArchive.Pipeline

/-- What the caller returns, given what the consumer has come to. -/
abbrev total {ι : Type} (skipped : ℕ) (result : Except ArchiveError (Summary × ι)) :
    Except ArchiveError (Summary × ι) :=
  result.map fun (summary, inner) => ({ summary with skipped }, inner)

variable {σ ι : Type} [Sink σ ι]

/-- What a state turns into in one step. -/
inductive Move (setup : Setup) (state : State σ ι) : State σ ι → Prop where
  | scan {event : Scan.Event} {scan : Scan.State}
      (h : state.scan.next? setup.scan event = some scan)
      (hr : scan.received = state.scan.received) : Move setup state { state with scan }
  | accept {event : Scan.Event} {scan : Scan.State} {receiver : ℕ} {record : FileRecord}
      {consumer : Consumer σ ι} (h : state.scan.next? setup.scan event = some scan)
      (hr : scan.received = state.scan.received ++ [(receiver, record)])
      (ha : state.consumer.accept? record = some consumer) :
      Move setup state { state with scan, consumer }
  | write {consumer : Consumer σ ι} (hw : state.consumer.write? setup.progress = some consumer) :
      Move setup state { state with consumer }
  | finish {consumer : Consumer σ ι} (he : state.streamEnded = true)
      (hf : state.consumer.finish? = some consumer) : Move setup state { state with consumer }
  | join {result : Except ArchiveError (Summary × ι)} (hr : state.returned? = none)
      (ho : state.scan.owner = .closed) (hs : state.consumer.stage = .finished result) :
      Move setup state
        { state with returned? := some (total state.scan.skipped result) }

end PlaneArchive.Pipeline

namespace PlaneArchive.Scan

variable {setup : Setup} {state after : State}

/-- A step hands over at most one record. -/
theorem Move.received (h : Move setup state after) :
    after.received = state.received ∨
      ∃ receiver record, after.received = state.received ++ [(receiver, record)] := by
  cases h with
  | receive _ _ => exact Or.inr ⟨_, _, rfl⟩
  | @handOver id _ _ _ _ _ => exact Or.inr ⟨_, _, by cases id <;> rfl⟩
  | @act id _ _ _ _ _ hp =>
    obtain ⟨_, _, _, hr⟩ := hp.frame
    left
    rw [← hr]
    cases id <;> rfl
  | _ => exact Or.inl rfl

end PlaneArchive.Scan

namespace PlaneArchive.Pipeline

variable {σ ι : Type} {setup : Setup} {inputs : List Path} {writer : Writer σ}
  {state after : State σ ι}

theorem follow?_of_same {scan : Scan.State} (hr : scan.received = state.scan.received) :
    state.follow? scan = some { state with scan } := by
  rw [State.follow?, hr, List.getElem?_eq_none (Nat.le_refl _)]

theorem follow?_of_received {scan : Scan.State} {receiver : ℕ} {record : FileRecord}
    (hr : scan.received = state.scan.received ++ [(receiver, record)]) :
    state.follow? scan =
      (state.consumer.accept? record).map fun consumer => { state with scan, consumer } := by
  rw [State.follow?, hr, List.getElem?_concat_length]

theorem streamEnded_iff : state.streamEnded = true ↔
    state.scan.expandersExited = true ∧ state.scan.decompressorsExited = true ∧
      state.scan.output = [] := by
  rw [State.streamEnded, Bool.and_eq_true_iff, Bool.and_eq_true_iff, List.isEmpty_iff, and_assoc]

/-- A stream that has ended brings nothing more, and stays so. -/
theorem received_of_streamEnded {event : Scan.Event} {scan : Scan.State}
    (he : state.streamEnded = true) (h : state.scan.next? setup.scan event = some scan) :
    scan.received = state.scan.received ∧
      State.streamEnded { state with scan } = true := by
  obtain ⟨hexpanders, hdecompressors, houtput⟩ := streamEnded_iff.mp he
  rcases (Scan.move_of_next? h).of_exited hexpanders hdecompressors with
    ⟨_, owner, pending, jobs, rfl⟩ | ⟨_, record, hfirst, _⟩
  · exact ⟨rfl, he⟩
  · rw [houtput] at hfirst
    cases hfirst

variable [Sink σ ι]

theorem move_of_next? {event : Event} (h : state.next? setup event = some after) :
    Move setup state after := by
  cases event with
  | scan event =>
    obtain ⟨scan, hscan, hfollow⟩ := Option.bind_eq_some_iff.mp h
    rcases (Scan.move_of_next? hscan).received with hr | ⟨receiver, record, hr⟩
    · rw [follow?_of_same hr] at hfollow
      cases hfollow
      exact .scan hscan hr
    · rw [follow?_of_received hr] at hfollow
      obtain ⟨consumer, ha, hafter⟩ := Option.map_eq_some_iff.mp hfollow
      cases hafter
      exact .accept hscan hr ha
  | write =>
    obtain ⟨consumer, hw, hafter⟩ := Option.map_eq_some_iff.mp h
    cases hafter
    exact .write hw
  | finish =>
    rw [State.next?] at h
    split at h
    · next he =>
      obtain ⟨consumer, hf, hafter⟩ := Option.map_eq_some_iff.mp h
      cases hafter
      exact .finish he hf
    · cases h
  | join =>
    rw [State.next?, State.join?] at h
    split at h
    · next hr ho hs =>
      cases h
      exact .join hr ho hs
    · cases h

/-- A pipeline scans as the scan does that feeds it. -/
theorem Reachable.scan (h : Reachable setup inputs writer state) :
    Scan.Reachable setup.scan inputs state.scan := by
  induction h with
  | start => exact .start
  | step _ _ hnext ih =>
    cases move_of_next? hnext with
    | scan hscan _ => exact .step _ ih hscan
    | accept hscan _ _ => exact .step _ ih hscan
    | write _ => exact ih
    | finish _ _ => exact ih
    | join _ _ _ => exact ih

theorem run?_cons_eq_some_iff {event : Event} {events : List Event} :
    state.run? setup (event :: events) = some after ↔
      ∃ next, state.next? setup event = some next ∧ next.run? setup events = some after := by
  rw [State.run?, List.foldlM_cons]
  exact Option.bind_eq_some_iff

theorem reachable_of_run? {events : List Event} (hr : Reachable setup inputs writer state)
    (h : state.run? setup events = some after) : Reachable setup inputs writer after := by
  induction events generalizing state with
  | nil =>
    cases h
    exact hr
  | cons event events ih =>
    obtain ⟨next, hnext, hrest⟩ := run?_cons_eq_some_iff.mp h
    exact ih (.step event hr hnext) hrest

/-- A consumer that has finished was at the end of its stream. -/
theorem streamEnded_of_finished (h : Reachable setup inputs writer state)
    {result : Except ArchiveError (Summary × ι)} (hs : state.consumer.stage = .finished result) :
    state.streamEnded = true := by
  induction h with
  | start => cases hs
  | step _ _ hnext ih =>
    cases move_of_next? hnext with
    | scan hscan _ => exact (received_of_streamEnded (ih hs) hscan).2
    | @accept _ _ _ record consumer _ _ ha =>
      unfold Consumer.accept? at ha
      split at ha
      · cases ha
        cases hs
      · next hdraining =>
        cases ha
        rw [hdraining] at hs
        cases hs
      · cases ha
      · cases ha
    | @write consumer hw =>
      unfold Consumer.write? at hw
      split at hw
      · cases hw
        dsimp only at hs
        split at hs <;> cases hs
      · cases hw
      · cases hw
      · cases hw
    | finish he _ => exact he
    | join _ _ _ => exact ih hs

/-- Once the caller has returned nothing moves any more: its result stands for the final state. -/
theorem closed_of_returned (h : Reachable setup inputs writer state)
    {returned : Except ArchiveError (Summary × ι)} (hr : state.returned? = some returned) :
    state.scan.owner = .closed ∧ ∃ result, state.consumer.stage = .finished result ∧
      returned = total state.scan.skipped result := by
  induction h with
  | start => cases hr
  | @step state _ _ hbefore hnext ih =>
    have hstill : state.returned? = some returned → ∀ event,
        state.scan.next? setup.scan event = none := by
      intro hsame event
      obtain ⟨ho, result, hs, _⟩ := ih hsame
      obtain ⟨he, hd, houtput⟩ := streamEnded_iff.mp (streamEnded_of_finished hbefore hs)
      rw [Option.eq_none_iff_forall_ne_some]
      intro scan hscan
      rcases (Scan.move_of_next? hscan).of_exited he hd with ⟨hopen, _⟩ | ⟨_, _, hfirst, _⟩
      · exact hopen ho
      · rw [houtput] at hfirst
        cases hfirst
    cases move_of_next? hnext with
    | scan hscan _ =>
      rw [hstill hr] at hscan
      cases hscan
    | accept hscan _ _ =>
      rw [hstill hr] at hscan
      cases hscan
    | write hw =>
      obtain ⟨_, result, hs, _⟩ := ih hr
      rw [Consumer.write?, hs] at hw
      cases hw
    | finish _ hf =>
      obtain ⟨_, result, hs, _⟩ := ih hr
      rw [Consumer.finish?, hs] at hf
      cases hf
    | @join result _ ho hs =>
      cases hr
      exact ⟨ho, result, hs, rfl⟩

end PlaneArchive.Pipeline
