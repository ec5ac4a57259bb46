import PlaneArchive.Proofs.Pipeline.Moves

/-! # The pipeline writes what it receives

Whatever the interleaving, the consumer ends as it would after taking the records in the order in
which it received them, with nobody else at work. So only this order matters.
-/
namespace PlaneArchive.Pipeline

variable {σ ι : Type} [Sink σ ι]

/-- How the consumer will end if it is handed these records before the end of its stream. -/
def Consumer.forecast (progress : Bool) (consumer : Consumer σ ι) (rest : List FileRecord) :
    Consumption σ ι :=
  let later :=
    match consumer.stage with
    | .receiving => consumeFrom progress consumer.summary consumer.writer rest
    | .writing record => consumeFrom progress consumer.summary consumer.writer (record :: rest)
    | .draining e => ⟨.error e, [], consumer.writer⟩
    | .finished result => ⟨result, [], consumer.writer⟩
  { later with lines := consumer.lines ++ later.lines }

variable {progress : Bool} {consumer next : Consumer σ ι} {setup : Setup} {inputs : List Path}
  {writer : Writer σ} {state : State σ ι}

theorem forecast_accept? {record : FileRecord} (h : consumer.accept? record = some next)
    (rest : List FileRecord) :
    next.forecast progress rest = consumer.forecast progress (record :: rest) := by
  unfold Consumer.accept? at h
  split at h
  · next hs =>
    cases h
    simp only [Consumer.forecast, hs]
  · next hs =>
    cases h
    simp only [Consumer.forecast, hs]
  · cases h
  · cases h

section

variable {record : FileRecord} {written : Writer σ} {e : ArchiveError}

def Consumer.line (progress : Bool) (consumer : Consumer σ ι) (record : FileRecord) :
    List String :=
  if progress then [progressLine consumer.summary.records record] else []

theorem write?_of_ok (hs : consumer.stage = .writing record)
    (hw : consumer.writer.write record = (.ok (), written)) :
    consumer.write? progress = some
      { writer := written
        stage := .receiving
        summary := count consumer.summary record
        lines := consumer.lines ++ consumer.line progress record } := by
  rw [Consumer.write?, hs]
  dsimp only
  rw [hw]
  rfl

theorem write?_of_error (hs : consumer.stage = .writing record)
    (hw : consumer.writer.write record = (.error e, written)) :
    consumer.write? progress = some
      { writer := written
        stage := .draining e
        summary := count consumer.summary record
        lines := consumer.lines ++ consumer.line progress record } := by
  rw [Consumer.write?, hs]
  dsimp only
  rw [hw]
  rfl

end

theorem forecast_write? (h : consumer.write? progress = some next) (rest : List FileRecord) :
    next.forecast progress rest = consumer.forecast progress rest := by
  cases hs : consumer.stage with
  | writing record =>
    cases hw : consumer.writer.write record with
    | mk outcome written =>
      cases outcome with
      | ok _ =>
        rw [write?_of_ok hs hw] at h
        cases h
        simp only [Consumer.forecast, Consumer.line, hs, consumeFrom, hw, List.append_assoc]
      | error e =>
        rw [write?_of_error hs hw] at h
        cases h
        simp only [Consumer.forecast, Consumer.line, hs, consumeFrom, hw, List.append_nil]
  | _ =>
    rw [Consumer.write?, hs] at h
    cases h

theorem forecast_finish? (h : consumer.finish? = some next) :
    next.forecast progress [] = consumer.forecast progress [] := by
  cases hs : consumer.stage with
  | receiving =>
    rw [Consumer.finish?, hs] at h
    dsimp only at h
    rw [← Option.some_inj.mp h]
    simp only [Consumer.forecast, hs, consumeFrom]
    cases consumer.writer.close with
    | mk outcome closed => cases outcome <;> rfl
  | draining e =>
    rw [Consumer.finish?, hs] at h
    cases h
    simp only [Consumer.forecast, hs]
  | _ =>
    rw [Consumer.finish?, hs] at h
    cases h

theorem exists_finished_of_finish? (h : consumer.finish? = some next) :
    ∃ result, next.stage = .finished result := by
  unfold Consumer.finish? at h
  split at h
  · cases h
    exact ⟨_, rfl⟩
  · cases h
    exact ⟨_, rfl⟩
  · cases h
  · cases h

/-- At every moment the rest of the stream decides how the consumer will end, as it does for the
sequential consumer that has taken what was received so far. -/
theorem forecast_eq (h : Reachable setup inputs writer state) (rest : List FileRecord)
    (hrest : ∀ result, state.consumer.stage = .finished result → rest = []) :
    state.consumer.forecast setup.progress rest =
      consume setup.progress writer (state.scan.received.map (·.2) ++ rest) := by
  -- A consumer that has finished sees no rest any more, so nothing is said about one then.
  induction h generalizing rest with
  | start => rfl
  | @step state _ _ _ hnext ih =>
    cases move_of_next? hnext with
    | scan hscan hr => rw [ih rest hrest, hr]
    | @accept _ _ _ record consumer hscan hr ha =>
      have hopen : ∀ result, state.consumer.stage = .finished result → record :: rest = [] := by
        intro result hs
        rw [Consumer.accept?, hs] at ha
        cases ha
      rw [forecast_accept? ha, ih (record :: rest) hopen, hr, List.map_append, List.append_assoc]
      rfl
    | write hw =>
      have hopen : ∀ result, state.consumer.stage = .finished result → rest = [] := by
        intro result hs
        rw [Consumer.write?, hs] at hw
        cases hw
      rw [forecast_write? hw, ih rest hopen]
    | finish he hf =>
      obtain ⟨result, hs⟩ := exists_finished_of_finish? hf
      obtain rfl := hrest result hs
      rw [forecast_finish? hf, ih [] fun _ _ => rfl]
    | join _ _ _ => exact ih rest hrest

/-- A consumer that has finished has come to what the records make of a sequential one. -/
theorem consume_of_finished (h : Reachable setup inputs writer state)
    {result : Except ArchiveError (Summary × ι)} (hs : state.consumer.stage = .finished result) :
    consume setup.progress writer (state.scan.received.map (·.2)) =
      ⟨result, state.consumer.lines, state.consumer.writer⟩ := by
  have hforecast := forecast_eq h [] fun _ _ => rfl
  rw [List.append_nil] at hforecast
  simp only [Consumer.forecast, hs, List.append_nil] at hforecast
  exact hforecast.symm

/-- What the caller returns is what comes of scanning first and writing then, if the records are
taken in the order of their arrival; and the scan is drained by then. -/
theorem ofScan_of_returned (h : Reachable setup inputs writer state)
    {returned : Except ArchiveError (Summary × ι)} (hr : state.returned? = some returned) :
    state.scan.isDrained = true ∧ ofScan setup.progress writer state.scan.outcome =
      ⟨returned, state.consumer.lines, state.consumer.writer⟩ := by
  obtain ⟨ho, result, hs, rfl⟩ := closed_of_returned h hr
  obtain ⟨_, _, houtput⟩ := streamEnded_iff.mp (streamEnded_of_finished h hs)
  constructor
  · exact Scan.isDrained_iff.mpr ⟨ho, houtput⟩
  · rw [ofScan, Scan.State.outcome]
    dsimp only
    rw [consume_of_finished h hs]

end PlaneArchive.Pipeline
