import PlaneArchive.Proofs.Pipeline.Delivery
import PlaneArchive.Proofs.Writer.Counting

/-! # What a run that succeeds has written

A run reports success only if no record was refused and no block failed. Nothing need be known of
its records and headers beforehand: they fit then, and the stream consists of frames that give the
records back.
-/
namespace PlaneArchive

namespace WriterOptions

variable {options : WriterOptions} {blocks : List Block} {current : Block}
  {batches : List (List FileRecord)} {pending : List FileRecord} {record : FileRecord}
  {frames : List Frame}

/-- The frames of blocks that have been written are the ones that these blocks should have. -/
theorem allDue_of_written (hv : options.validate = .ok ())
    (h : Holds options.page blocks current batches pending)
    (hdue : blocks.map options.dueFrame? = frames.map some) :
    options.AllDue blocks ∧ frames = blocks.map options.frameOf := by
  have hall : options.AllDue blocks := by
    intro block hmem
    have hsome : options.dueFrame? block ∈ frames.map some := hdue ▸ List.mem_map_of_mem hmem
    obtain ⟨frame, -, hframe⟩ := List.mem_map.mp hsome
    have hmade := (dueFrame?_eq_some_iff.mp hframe.symm).1
    rw [frame_eq_of_holds hv h hmem] at hmade
    cases hmade
    exact hframe.symm
  refine ⟨hall, ?_⟩
  have hsame : frames.map some = (blocks.map options.frameOf).map some := by
    rw [← hdue, List.map_map]
    exact List.map_congr_left hall
  exact List.map_injective_iff.mpr (Option.some_injective Frame) hsame

theorem fits_of_not_refused (hword : record.content.length < UInt64.size)
    (h : options.refusal? Block.sizeLimit (.write record) = none) : record.Fits options.page := by
  by_contra hlarge
  obtain ⟨e, hfit⟩ := exists_fit_eq_error hword (Nat.lt_of_not_le hlarge)
  rw [refusal?, hfit] at h
  cases h

end WriterOptions

namespace Pipeline

variable {σ ι : Type} [Sink σ ι] {options : WriterOptions} {sink : σ}
  {records earlier later : List FileRecord} {record : FileRecord} {writer next : Writer σ}

/-- A write that succeeds was not refused, and the writer has written the blocks that it closed. -/
theorem settled_of_write_ok (hword : record.content.length < UInt64.size)
    (h : (Session.start sink options).writer.settled
      (options.pack Block.sizeLimit (requests earlier)) = (.ok (), writer))
    (hw : writer.write record = (.ok (), next)) :
    record.Fits options.page ∧ (Session.start sink options).writer.settled
      (options.pack Block.sizeLimit (requests (earlier ++ [record]))) = (.ok (), next) := by
  have hs := Session.fresh_start sink options
  have hstill := WriterOptions.isOpen_pack options Block.sizeLimit
    (close_notMem_requests earlier)
  cases hr : options.refusal? Block.sizeLimit (.write record) with
  | some e =>
    have hrefused := (Writer.work_of_refused hs hstill h hr).1
    rw [Writer.work, hw] at hrefused
    cases hrefused
  | none =>
    have hrequests : requests (earlier ++ [record]) = requests earlier ++ [.write record] :=
      List.map_append
    refine ⟨WriterOptions.fits_of_not_refused hword hr, ?_⟩
    rw [hrequests, WriterOptions.pack_append_singleton]
    exact (Writer.work_of_settled hs hstill h hr).symm.trans hw

theorem settled_of_close_ok (h : (Session.start sink options).writer.settled
      (options.pack Block.sizeLimit (requests records)) = (.ok (), writer))
    {inner : ι} {closed : Writer σ} (hclose : writer.close = (.ok inner, closed)) :
    (Session.start sink options).writer.settled
      (options.pack Block.sizeLimit (requests records ++ [.close])) = (.ok (), closed) := by
  have hs := Session.fresh_start sink options
  have hstill := WriterOptions.isOpen_pack options Block.sizeLimit
    (close_notMem_requests records)
  have hrefusal : options.refusal? Block.sizeLimit .close = none := rfl
  have hwork := Writer.work_of_settled hs hstill h hrefusal
  rw [WriterOptions.pack_append_singleton]
  exact hwork.symm.trans (Writer.adds_of_close_ok hclose).1

/-- A consumer that succeeds with no record left has closed its writer. -/
theorem close_of_consumeFrom_ok {progress : Bool} {summary total : Summary} {inner : ι}
    (hok : (consumeFrom progress summary writer []).result = .ok (total, inner)) :
    writer.close = (.ok inner, (consumeFrom progress summary writer []).writer) := by
  rw [consumeFrom] at hok ⊢
  cases hclose : writer.close with
  | mk outcome closed =>
    rw [hclose] at hok
    cases outcome with
    | error e => cases hok
    | ok left =>
      cases hok
      rfl

/-- A consumer that succeeds has written the next record and succeeds with the others. -/
theorem write_of_consumeFrom_ok {progress : Bool} {summary total : Summary} {inner : ι}
    (hok : (consumeFrom progress summary writer (record :: later)).result = .ok (total, inner)) :
    ∃ next, writer.write record = (.ok (), next) ∧
      (consumeFrom progress (count summary record) next later).result = .ok (total, inner) ∧
      (consumeFrom progress summary writer (record :: later)).writer =
        (consumeFrom progress (count summary record) next later).writer := by
  rw [consumeFrom] at hok ⊢
  cases hw : writer.write record with
  | mk outcome next =>
    rw [hw] at hok
    cases outcome with
    | error e => cases hok
    | ok _ => exact ⟨next, rfl, hok, rfl⟩

/-- When the consumer succeeds, all records fit a frame, and all blocks have been written. -/
theorem settled_of_consumeFrom_ok (progress : Bool)
    (hfit : ∀ record ∈ earlier, record.Fits options.page)
    (hword : ∀ record ∈ later, record.content.length < UInt64.size)
    (h : (Session.start sink options).writer.settled
      (options.pack Block.sizeLimit (requests earlier)) = (.ok (), writer))
    {summary total : Summary} {inner : ι}
    (hok : (consumeFrom progress summary writer later).result = .ok (total, inner)) :
    (∀ record ∈ earlier ++ later, record.Fits options.page) ∧
      (Session.start sink options).writer.settled
        (options.pack Block.sizeLimit (requests (earlier ++ later) ++ [.close])) =
          (.ok (), (consumeFrom progress summary writer later).writer) := by
  -- Each record moves from the later ones to the earlier ones once its write has succeeded.
  induction later generalizing earlier writer summary with
  | nil =>
    rw [List.append_nil]
    exact ⟨hfit, settled_of_close_ok h (close_of_consumeFrom_ok hok)⟩
  | cons record later ih =>
    obtain ⟨next, hw, hlater, hwriter⟩ := write_of_consumeFrom_ok hok
    obtain ⟨hrecord, hnext⟩ :=
      settled_of_write_ok (hword record List.mem_cons_self) h hw
    have hsplit : earlier ++ record :: later = (earlier ++ [record]) ++ later := by simp
    rw [hsplit, hwriter]
    refine ih ?_ (fun other hmem => hword other (List.mem_cons_of_mem _ hmem)) hnext hlater
    intro other hmem
    rcases List.mem_append.mp hmem with hold | hnew
    · exact hfit other hold
    · rw [List.mem_singleton.mp hnew]
      exact hrecord

theorem follows_consumeFrom (progress : Bool) (summary : Summary) (writer : Writer σ)
    (records : List FileRecord) :
    Sink.Follows writer.sink (consumeFrom progress summary writer records).writer.sink := by
  induction records generalizing writer summary with
  | nil =>
    have hclose := writer.follows_close
    rw [consumeFrom]
    cases hc : writer.close with
    | mk outcome closed =>
      rw [hc] at hclose
      cases outcome with
      | ok inner => exact hclose
      | error e => exact hclose
  | cons record records ih =>
    have hwrite := writer.follows_write record
    rw [consumeFrom]
    cases hw : writer.write record with
    | mk outcome next =>
      rw [hw] at hwrite
      cases outcome with
      | ok _ => exact hwrite.trans (ih (count summary record) next)
      | error e => exact hwrite

/-- What a run that succeeds hands over is what is left of its sink. -/
theorem finish_of_consumeFrom_ok (progress : Bool) {summary total : Summary} {inner : ι}
    (hok : (consumeFrom progress summary writer records).result = .ok (total, inner)) :
    Sink.finish (consumeFrom progress summary writer records).writer.sink = .ok inner := by
  induction records generalizing writer summary with
  | nil => exact (Writer.adds_of_close_ok (close_of_consumeFrom_ok hok)).2.1
  | cons record records ih =>
    obtain ⟨next, -, hlater, hwriter⟩ := write_of_consumeFrom_ok hok
    rw [hwriter]
    exact ih hlater

theorem consumed_of_ofScan_ok {progress : Bool} {arrived : ScanOutcome} {summary : Summary}
    {inner : ι} (hok : (ofScan progress writer arrived).result = .ok (summary, inner)) :
    ∃ total, (consumeFrom progress {} writer arrived.records).result = .ok (total, inner) := by
  rw [ofScan, consume] at hok
  cases hconsumed : (consumeFrom progress {} writer arrived.records).result with
  | error e =>
    rw [hconsumed] at hok
    cases hok
  | ok reported =>
    rw [hconsumed] at hok
    cases hok
    exact ⟨_, rfl⟩

/-- What a run has written when it succeeds. -/
structure Wrote (options : WriterOptions) (before after : σ) (records : List FileRecord)
    (frames : List Frame) : Prop where
  taken_eq : Sink.taken after = Sink.taken before ++ Frame.encodeAll frames
  records_eq : frames.flatMap (fun frame => frame.recover.records) = records
  wellFormed : ∀ frame ∈ frames, frame.WellFormed
  describes : ∀ frame ∈ frames, options.Describes frame

/-- The sink may be any: a consumer that succeeds has written frames that give the records back. -/
theorem wrote_of_consume_ok (progress : Bool) (hcreate : Writer.create sink options = .ok writer)
    (hword : ∀ record ∈ records, record.content.length < UInt64.size)
    {summary : Summary} {inner : ι}
    (hok : (consume progress writer records).result = .ok (summary, inner)) :
    ∃ frames, Wrote options sink (consume progress writer records).writer.sink records frames ∧
      writer.Adds (consume progress writer records).writer frames := by
  obtain ⟨hv, rfl⟩ := Session.create_eq_ok hcreate
  have hinitial := Writer.settled_initial (Session.fresh_start sink options)
  have hnone : ∀ record ∈ ([] : List FileRecord), record.Fits options.page :=
    fun _ hmem => absurd hmem List.not_mem_nil
  obtain ⟨hfit, hsettled⟩ := settled_of_consumeFrom_ok progress hnone hword hinitial hok
  obtain ⟨written, hwritten, hafter⟩ := Writer.written_of_settled hsettled
  obtain ⟨frames, hframes, hadds⟩ := Writer.adds_of_writeBlocks_ok hwritten
  obtain ⟨current, batches, hholds, _⟩ := holds_blocksOf hv hfit
  obtain ⟨hdue, rfl⟩ := WriterOptions.allDue_of_written hv hholds hframes
  obtain ⟨hrecords, hdescribes⟩ := recovers_framesOf hv hfit hdue
  have hclosed : Writer.Adds (Session.start sink options).writer
      (consume progress (Session.start sink options).writer records).writer
      ((blocksOf options records).map options.frameOf) := by
    rw [consume, hafter]
    exact ⟨hadds.taken_eq, hadds.count_eq, hadds.wellFormed⟩
  exact ⟨_, {
    taken_eq := hclosed.taken_eq
    records_eq := hrecords
    wellFormed := hadds.wellFormed
    describes := hdescribes }, hclosed⟩

theorem wrote_of_ok (progress : Bool) (hcreate : Writer.create sink options = .ok writer)
    {arrived : ScanOutcome}
    (hword : ∀ record ∈ arrived.records, record.content.length < UInt64.size)
    {summary : Summary} {inner : ι}
    (hok : (ofScan progress writer arrived).result = .ok (summary, inner)) :
    ∃ frames, Wrote options sink (ofScan progress writer arrived).writer.sink arrived.records
      frames := by
  obtain ⟨total, hconsumed⟩ := consumed_of_ofScan_ok hok
  obtain ⟨frames, hwrote, -⟩ := wrote_of_consume_ok progress hcreate hword hconsumed
  exact ⟨frames, hwrote⟩

/-- How a pipeline ends, and the records in the order in which its consumer takes them: after
scanning first and writing then, or with both side by side. -/
inductive Ends (setup : Setup) (inputs : List Path) (writer : Writer σ) :
    List FileRecord → Consumption σ ι → Prop
  | sequential (h : setup.config.validate = .ok ()) :
      Ends setup inputs writer (Scan.run setup.decoder setup.tree inputs).records
        (run setup.decoder setup.tree inputs setup.config setup.progress writer)
  | interleaved {state : State σ ι} {returned : Except ArchiveError (Summary × ι)}
      (h : Reachable setup inputs writer state) (hreturned : state.returned? = some returned) :
      Ends setup inputs writer state.scan.outcome.records
        ⟨returned, state.consumer.lines, state.consumer.writer⟩

/-- In both ways the consumer does the same with the records. -/
theorem ofScan_of_ends {setup : Setup} {inputs : List Path} {consumption : Consumption σ ι}
    (h : Ends setup inputs writer records consumption) :
    ∃ arrived, arrived.records = records ∧
      ofScan setup.progress writer arrived = consumption := by
  cases h with
  | sequential hconfig =>
    refine ⟨Scan.run setup.decoder setup.tree inputs, rfl, ?_⟩
    rw [run, hconfig]
  | interleaved hreach hreturned => exact ⟨_, rfl, (ofScan_of_returned hreach hreturned).2⟩

end Pipeline

end PlaneArchive
