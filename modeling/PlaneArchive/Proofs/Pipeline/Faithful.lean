import PlaneArchive.Proofs.Pipeline.Success

/-! # The consumer does what a writer does that is driven directly

Records are written in the order of their arrival up to the first whose write fails. From then on
records are taken and not looked at, and neither the writer nor its sink is touched again. Success
is reported only if every record has been written and the archive is complete.
-/
namespace PlaneArchive.Pipeline

variable {σ ι : Type} [Sink σ ι]

/-- All of these records are written, one after another. -/
inductive Writes : Writer σ → List FileRecord → Writer σ → Prop where
  | done (writer : Writer σ) : Writes writer [] writer
  | next {writer between after : Writer σ} {record : FileRecord} {records : List FileRecord}
      (h : writer.write record = (.ok (), between)) (hrest : Writes between records after) :
      Writes writer (record :: records) after

/-- The lines that are printed before the writes of these records. -/
def lines (progress : Bool) (records : List FileRecord) : List String :=
  if progress then records.zipIdx.map fun numbered => progressLine numbered.2 numbered.1 else []

/-- What comes of driving a writer with some records by hand, up to the first failure. -/
inductive Direct (progress : Bool) (writer : Writer σ) (records : List FileRecord) :
    Consumption σ ι → Prop where
  | failed {before after : List FileRecord} {failing : FileRecord} {between last : Writer σ}
      {e : ArchiveError} (hsplit : records = before ++ failing :: after)
      (hbefore : Writes writer before between) (hfail : between.write failing = (.error e, last)) :
      Direct progress writer records ⟨.error e, lines progress (before ++ [failing]), last⟩
  | unclosed {between last : Writer σ} {e : ArchiveError} (hall : Writes writer records between)
      (hclose : between.close = (.error e, last)) :
      Direct progress writer records ⟨.error e, lines progress records, last⟩
  | closed {between last : Writer σ} {inner : ι} (hall : Writes writer records between)
      (hclose : between.close = (.ok inner, last)) :
      Direct progress writer records
        ⟨.ok ({ records := records.length, bytes := contentBytes records
                blocks := between.blocksWritten + 1 }, inner), lines progress records, last⟩

/-- What the consumer has done with the records that it has received. -/
inductive Attended (progress : Bool) (writer : Writer σ) (received : List FileRecord) :
    Consumer σ ι → Prop where
  | receiving {current : Writer σ} (hall : Writes writer received current) :
      Attended progress writer received
        { writer := current
          stage := .receiving
          summary := { records := received.length, bytes := contentBytes received }
          lines := lines progress received }
  | writing {before : List FileRecord} {record : FileRecord} {current : Writer σ}
      (hsplit : received = before ++ [record]) (hbefore : Writes writer before current) :
      Attended progress writer received
        { writer := current
          stage := .writing record
          summary := { records := before.length, bytes := contentBytes before }
          lines := lines progress before }
  | draining {before after : List FileRecord} {failing : FileRecord} {between last : Writer σ}
      {e : ArchiveError} (hsplit : received = before ++ failing :: after)
      (hbefore : Writes writer before between) (hfail : between.write failing = (.error e, last)) :
      Attended progress writer received
        { writer := last
          stage := .draining e
          summary := { records := (before ++ [failing]).length
                       bytes := contentBytes (before ++ [failing]) }
          lines := lines progress (before ++ [failing]) }
  | finished {consumption : Consumption σ ι} {summary : Summary}
      (h : Direct progress writer received consumption) :
      Attended progress writer received
        { writer := consumption.writer
          stage := .finished consumption.result
          summary
          lines := consumption.lines }

variable {progress : Bool} {writer between after : Writer σ}
  {records more received : List FileRecord} {record : FileRecord} {consumer next : Consumer σ ι}
  {setup : Setup} {inputs : List Path} {state : State σ ι}

theorem Writes.snoc (h : Writes writer records between)
    (hlast : between.write record = (.ok (), after)) :
    Writes writer (records ++ [record]) after := by
  induction h with
  | done writer => exact .next hlast (.done after)
  | next h _ ih => exact .next h (ih hlast)

theorem Writes.adds (h : Writes writer records after) : ∃ frames, writer.Adds after frames := by
  induction h with
  | done writer => exact ⟨[], .none writer⟩
  | next h _ ih =>
    obtain ⟨frames, hfirst⟩ := Writer.adds_of_write_ok h
    obtain ⟨more, hrest⟩ := ih
    exact ⟨frames ++ more, hfirst.trans hrest⟩

theorem lines_nil (progress : Bool) : lines progress [] = [] := by
  cases progress <;> rfl

theorem lines_snoc (progress : Bool) (records : List FileRecord) (record : FileRecord) :
    lines progress (records ++ [record]) =
      lines progress records ++
        if progress then [progressLine records.length record] else [] := by
  cases progress with
  | false => rfl
  | true => simp [lines, List.zipIdx_append]

theorem contentBytes_snoc (records : List FileRecord) (record : FileRecord) :
    contentBytes (records ++ [record]) = contentBytes records + record.content.length := by
  simp [contentBytes]

theorem attended_initial (progress : Bool) (writer : Writer σ) :
    Attended progress writer [] ({ writer } : Consumer σ ι) := by
  have h : Attended progress writer [] (_ : Consumer σ ι) := .receiving (.done writer)
  rw [lines_nil] at h
  exact h

theorem Attended.accept (h : Attended progress writer received consumer)
    (ha : consumer.accept? record = some next) :
    Attended progress writer (received ++ [record]) next := by
  cases h with
  | receiving hall =>
    cases ha
    exact .writing rfl hall
  | writing hsplit hbefore => cases ha
  | @draining before after failing _ _ _ hsplit hbefore hfail =>
    -- The record joins those behind the failing one, and the rest stays as it is.
    cases ha
    have hlonger : received ++ [record] = before ++ failing :: (after ++ [record]) := by
      rw [hsplit, List.append_assoc, List.cons_append]
    exact .draining hlonger hbefore hfail
  | finished h => cases ha

theorem Attended.write (h : Attended progress writer received consumer)
    (hw : consumer.write? progress = some next) : Attended progress writer received next := by
  cases h with
  | receiving hall => cases hw
  | @writing before record current hsplit hbefore =>
    cases hwrite : current.write record with
    | mk outcome written =>
      cases outcome with
      | ok _ =>
        rw [write?_of_ok rfl hwrite] at hw
        cases hw
        have hall : Attended progress writer (before ++ [record]) _ :=
          .receiving (hbefore.snoc hwrite)
        rw [lines_snoc, contentBytes_snoc, List.length_append] at hall
        rw [hsplit]
        exact hall
      | error e =>
        rw [write?_of_error rfl hwrite] at hw
        cases hw
        have hlast : before ++ [record] = before ++ record :: [] := rfl
        have hfailed : Attended progress writer (before ++ [record]) _ :=
          .draining hlast hbefore hwrite
        rw [lines_snoc, contentBytes_snoc, List.length_append] at hfailed
        rw [hsplit]
        exact hfailed
  | draining hsplit hbefore hfail => cases hw
  | finished h => cases hw

theorem Attended.finish (h : Attended progress writer received consumer)
    (hf : consumer.finish? = some next) : Attended progress writer received next := by
  cases h with
  | @receiving current hall =>
    cases hclose : current.close with
    | mk outcome last =>
      rw [Consumer.finish?] at hf
      dsimp only at hf
      rw [hclose] at hf
      cases hf
      cases outcome with
      | ok inner => exact .finished (.closed hall hclose)
      | error e => exact .finished (.unclosed hall hclose)
  | writing hsplit hbefore => cases hf
  | draining hsplit hbefore hfail =>
    cases hf
    exact .finished (.failed hsplit hbefore hfail)
  | finished h => cases hf

theorem attended_of_reachable (h : Reachable setup inputs writer state) :
    Attended setup.progress writer (state.scan.received.map (·.2)) state.consumer := by
  induction h with
  | start => exact attended_initial setup.progress writer
  | step _ _ hnext ih =>
    cases move_of_next? hnext with
    | scan _ hr =>
      rw [hr]
      exact ih
    | accept _ hr ha =>
      rw [hr, List.map_append]
      exact ih.accept ha
    | write hw => exact ih.write hw
    | finish _ hf => exact ih.finish hf
    | join _ _ _ => exact ih

/-- The consumer that is handed all records at once, from somewhere in the middle on: what it prints
from there follows on the lines of the records before. -/
theorem direct_consumeFrom (progress : Bool) {start : Writer σ} (h : Writes start records writer)
    (later : List FileRecord) :
    let rest : Consumption σ ι := consumeFrom progress
      { records := records.length, bytes := contentBytes records } writer later
    Direct progress start (records ++ later)
      { rest with lines := lines progress records ++ rest.lines } := by
  -- Each record moves from the later ones to those that have been written, up to the first failure.
  induction later generalizing records writer with
  | nil =>
    dsimp only
    rw [consumeFrom, List.append_nil]
    cases hclose : writer.close with
    | mk outcome last =>
      cases outcome with
      | ok inner =>
        dsimp only
        rw [List.append_nil]
        exact .closed h hclose
      | error e =>
        dsimp only
        rw [List.append_nil]
        exact .unclosed h hclose
  | cons record later ih =>
    dsimp only
    rw [consumeFrom]
    cases hwrite : writer.write record with
    | mk outcome written =>
      cases outcome with
      | error e =>
        have hfailed : Direct progress start (records ++ record :: later) (_ : Consumption σ ι) :=
          .failed rfl h hwrite
        rw [lines_snoc] at hfailed
        exact hfailed
      | ok _ =>
        have hrest := ih (h.snoc hwrite)
        dsimp only at hrest
        rw [lines_snoc, contentBytes_snoc, List.length_append, List.append_assoc,
          List.append_assoc] at hrest
        exact hrest

theorem direct_consume (progress : Bool) (writer : Writer σ) (records : List FileRecord) :
    Direct progress writer records (consume progress writer records : Consumption σ ι) := by
  have h := direct_consumeFrom progress (.done writer) records
  rw [lines_nil] at h
  exact h

/-- What is reported as success counts every record, and every frame that the sink has taken. -/
theorem Direct.counts {consumption : Consumption σ ι} {summary : Summary} {inner : ι}
    (h : Direct progress writer records consumption)
    (hok : consumption.result = .ok (summary, inner)) :
    summary.records = records.length ∧ summary.bytes = contentBytes records ∧
      Sink.finish consumption.writer.sink = .ok inner ∧
      ∃ frames, writer.Adds consumption.writer frames ∧
        summary.blocks = writer.blocksWritten + frames.length := by
  cases h with
  | failed _ _ _ => cases hok
  | unclosed _ _ => cases hok
  | closed hall hclose =>
    cases hok
    obtain ⟨-, hfinish, frame, hlast⟩ := Writer.adds_of_close_ok hclose
    obtain ⟨frames, hfirst⟩ := hall.adds
    refine ⟨rfl, rfl, hfinish, frames ++ [frame], hfirst.trans hlast, ?_⟩
    have hcount := hfirst.count_eq
    rw [List.length_append, List.length_singleton]
    dsimp only
    omega

/-- Whatever arrives and whatever the sink does, the consumer ends as a writer does that is driven
directly, and has printed the lines of the records that it has tried to write. Success means that
the sink has taken frames that give all records back. In the pipeline the consumer has at every
moment written what it has received up to the first failure, and done no more; it does not end
before its stream does. -/
theorem consumer_is_faithful (setup : Setup) (inputs : List Path) (writer : Writer σ) :
    (∀ progress records,
      Direct progress writer records (consume progress writer records : Consumption σ ι)) ∧
    (∀ progress records summary inner,
      (consume progress writer records : Consumption σ ι).result = .ok (summary, inner) →
        summary.records = records.length ∧ summary.bytes = contentBytes records ∧
        Sink.finish (consume progress writer records).writer.sink = .ok inner ∧
        (∃ frames, writer.Adds (consume progress writer records).writer frames ∧
          summary.blocks = writer.blocksWritten + frames.length) ∧
        ∀ sink options, Writer.create sink options = .ok writer →
          (∀ record ∈ records, record.content.length < UInt64.size) →
            ∃ frames, summary.blocks = frames.length ∧
              Wrote options sink (consume progress writer records).writer.sink records frames) ∧
    ∀ state : State σ ι, Reachable setup inputs writer state →
      Attended setup.progress writer (state.scan.received.map (·.2)) state.consumer ∧
      ∀ result, state.consumer.stage = .finished result →
        state.streamEnded = true ∧ consume setup.progress writer (state.scan.received.map (·.2)) =
          ⟨result, state.consumer.lines, state.consumer.writer⟩ := by
  refine ⟨fun progress records => direct_consume progress writer records, ?_, ?_⟩
  · intro progress records summary inner hok
    obtain ⟨hrecords, hbytes, hfinish, frames, hadds, hblocks⟩ :=
      (direct_consume progress writer records).counts hok
    refine ⟨hrecords, hbytes, hfinish, ⟨frames, hadds, hblocks⟩, ?_⟩
    intro sink options hcreate hword
    obtain ⟨whole, hwrote, hwhole⟩ := wrote_of_consume_ok progress hcreate hword hok
    refine ⟨whole, ?_, hwrote⟩
    obtain ⟨-, rfl⟩ := Session.create_eq_ok hcreate
    rw [hblocks, ← hadds.count_eq, hwhole.count_eq]
    exact Nat.zero_add _
  · intro state hreach
    refine ⟨attended_of_reachable hreach, fun result hfinished => ?_⟩
    exact ⟨streamEnded_of_finished hreach hfinished, consume_of_finished hreach hfinished⟩

/-- A writer whose sink has room for the first frame, but not for the second. -/
def nearlyFull : Writer LimitedSink where
  sink := { room? := some 40, faults := { full? := some "full" } }
  options := smallPages

def threeRecords : List FileRecord := [⟨"a", [1]⟩, ⟨"b", [2]⟩, ⟨"c", [3]⟩]

theorem consumer_is_faithful_nearlyFull :
    ∃ last, Direct true nearlyFull threeRecords
        ⟨.error (.io [] (.other "full")), ["[0] a (1)", "[1] b (1)"], last⟩ ∧
      last.blocksWritten = 1 := by
  have hresult : (consume true nearlyFull threeRecords).result =
      .error (.io [] (.other "full")) := by cbv
  have hlines : (consume true nearlyFull threeRecords).lines = ["[0] a (1)", "[1] b (1)"] := by
    decide +kernel
  have hwritten : (consume true nearlyFull threeRecords).writer.blocksWritten = 1 := by
    decide +kernel
  refine ⟨(consume true nearlyFull threeRecords).writer, ?_, hwritten⟩
  rw [← hresult, ← hlines]
  exact (consumer_is_faithful handedOver [] nearlyFull).1 true threeRecords

end PlaneArchive.Pipeline
