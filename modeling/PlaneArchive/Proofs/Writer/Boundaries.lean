import PlaneArchive.Proofs.Writer.RoundTrip

/-! # Where blocks end

Over a sink that takes everything, a writer divides the records that it is given into blocks as the
greedy partition does. Every block therefore fits its limit, and where blocks end depends on padded
sizes and flushes alone.
-/
namespace PlaneArchive.Session

variable {σ ι : Type} [Sink σ ι] {sink : σ} {options : WriterOptions} {limit : ℕ}
  {requests : List Request}

/-- What a usable writer answers to a request when nothing fails beneath it. -/
def verdict (options : WriterOptions) (limit : ℕ) (request : Request) : Except ArchiveError Unit :=
  match options.refusal? limit request with
  | some e => .error e
  | none => .ok ()

/-- Nothing but a refusal ever goes wrong over a sink that takes everything. -/
theorem work_of_takesAll (hsink : Sink.TakesAll sink) (hlimit : limit ≤ Block.sizeLimit)
    (hopen : Request.close ∉ requests) {request : Request}
    (hdue : options.AllDue (options.pack limit (requests ++ [request])).closed) :
    (((startWithin sink options limit).after requests).writer.work request).1 =
      verdict options limit request := by
  have hs := fresh_startWithin sink options hlimit
  have hstill := WriterOptions.isOpen_pack options limit hopen
  obtain ⟨before, hbefore, _⟩ := Writer.settled_of_allDue
    (startWithin sink options limit).writer hsink hdue.earlier
  obtain ⟨after, hafter, _⟩ := Writer.settled_of_allDue
    (startWithin sink options limit).writer hsink hdue
  rw [after_startWithin sink hlimit, hbefore, verdict]
  cases hr : options.refusal? limit request with
  | some e =>
    rw [(Writer.work_of_refused hs hstill hbefore hr).1]
  | none =>
    rw [WriterOptions.pack_append_singleton] at hafter
    rw [Writer.work_of_settled hs hstill hbefore hr]
    exact congrArg Prod.fst hafter

theorem answer_of_ne_close {request : Request} (h : request ≠ .close)
    (worked : Except ArchiveError Unit × Writer σ) :
    (answer request worked : Answer ι) = .worked worked.1 := by
  cases request with
  | write record => rfl
  | flush => rfl
  | close => exact absurd rfl h

theorem answers_of_takesAll (hsink : Sink.TakesAll sink) (hlimit : limit ≤ Block.sizeLimit)
    (hopen : Request.close ∉ requests)
    (hdue : options.AllDue (options.pack limit requests).closed) :
    ((startWithin sink options limit).run requests).map Prod.fst =
      requests.map fun request => .worked (verdict options limit request) := by
  induction requests using List.reverseRecOn with
  | nil => rfl
  | append_singleton requests request ih =>
    rw [List.mem_append, List.mem_singleton, not_or] at hopen
    have hwork := work_of_takesAll hsink hlimit hopen.1 hdue
    have hstill : ((startWithin sink options limit).after requests).isOpen = true :=
      isOpen_after sink hlimit hopen.1
    rw [run_append_singleton, List.map_append, List.map_append, ih hopen.1 hdue.earlier,
      List.map_singleton, List.map_singleton, perform_of_open hstill,
      answer_of_ne_close (Ne.symm hopen.2), hwork]

/-- The frames that a writer has made and the block that it fills hold the batches of a
partition. -/
structure Batched (session : Session σ) (options : WriterOptions) (limit : ℕ)
    (partition : Partition FileRecord) (frames : List Frame) : Prop where
  records_eq : frames.map (fun frame => frame.recover.records) = partition.closed
  payload_eq : frames.map (fun frame => frame.payload.length) =
    partition.closed.map (options.batchRule limit).total
  block_eq : session.writer.block = Block.ofRecords options.page partition.current
  count_eq : session.writer.blocksWritten = partition.closed.length
  pending_lt : session.writer.pendingBytes < options.blockThreshold
  page_dvd_pending : options.page ∣ session.writer.pendingBytes
  payload_le : ∀ frame ∈ frames, frame.payload.length ≤ limit
  page_dvd_payload : ∀ frame ∈ frames, options.page ∣ frame.payload.length

theorem fits_of_mem_batch (hlimit : limit ≤ Block.sizeLimit) {batch : List FileRecord}
    (hle : (options.batchRule limit).total batch ≤ limit) :
    ∀ record ∈ batch, record.Fits options.page := fun _ hmem =>
  ((BatchRule.size_le_total hmem).trans hle).trans hlimit

theorem length_payload_frameOf (hp : 0 < options.page) (limit : ℕ) (batch : List FileRecord) :
    (options.frameOf (Block.ofRecords options.page batch)).payload.length =
      (options.batchRule limit).total batch := by
  rw [← WriterOptions.len_ofRecords hp limit, ← Block.length_payload]
  exact WriterOptions.length_arranged _ _

theorem allDue_pack (hv : options.validate = .ok ()) (hlimit : limit ≤ Block.sizeLimit)
    (hopen : Request.close ∉ requests)
    (hword : ∀ record ∈ written requests, record.content.length < UInt64.size)
    (hshort : options.ShortHeaders
      ((options.batches limit requests).closed.map (Block.ofRecords options.page))) :
    options.AllDue (options.pack limit requests).closed := by
  rw [WriterOptions.pack_eq_batches hv hlimit hopen hword]
  exact WriterOptions.allDue_of_holds hv (WriterOptions.holds_batches hv hlimit requests) hshort

theorem emits_batches (hv : options.validate = .ok ()) (hsink : Sink.TakesAll sink)
    (hlimit : limit ≤ Block.sizeLimit) (hopen : Request.close ∉ requests)
    (hword : ∀ record ∈ written requests, record.content.length < UInt64.size)
    (hdue : options.AllDue (options.pack limit requests).closed) :
    let session := (startWithin sink options limit).after requests
    ∃ frames, session.taken = Sink.taken sink ++ Frame.encodeAll frames ∧
      session.Batched options limit (options.batches limit requests) frames := by
  intro session
  have hp := WriterOptions.page_pos hv
  have hkeeps := WriterOptions.keeps_batches hv limit requests
  have hpack := WriterOptions.pack_eq_batches hv hlimit hopen hword
  obtain ⟨after, hafter, _, htaken, hcount⟩ := Writer.settled_of_allDue
    (startWithin sink options limit).writer hsink hdue
  have hsession : session.writer = after := by
    change ((startWithin sink options limit).after requests).writer = after
    rw [after_startWithin sink hlimit, hafter]
  have hblock : session.writer.block =
      Block.ofRecords options.page (options.batches limit requests).current := by
    rw [hsession, (Writer.settled_of_ok hafter).2.2.2, hpack]
    rfl
  have hpending : session.writer.pendingBytes =
      (options.batchRule limit).total (options.batches limit requests).current := by
    rw [Writer.pendingBytes, hblock, WriterOptions.len_ofRecords hp limit]
  refine ⟨(options.batches limit requests).closed.map fun batch =>
    options.frameOf (Block.ofRecords options.page batch), ?_, ?_⟩
  · rw [taken, hsession, htaken, hpack]
    change _ ++ Frame.encodeAll (((options.batches limit requests).closed.map _).map _) = _
    rw [List.map_map]
    rfl
  · exact {
      records_eq := by
        rw [List.map_map]
        refine (List.map_congr_left fun batch hmem => ?_).trans (List.map_id _)
        refine (WriterOptions.describes_frameOf hv ?_ (hdue _ ?_)).2
        · exact fits_of_mem_batch hlimit (hkeeps.closed_le batch hmem)
        · rw [hpack]
          exact List.mem_map_of_mem hmem
      payload_eq := by
        rw [List.map_map]
        exact List.map_congr_left fun batch _ => length_payload_frameOf hp limit batch
      block_eq := hblock
      count_eq := by
        rw [hsession, hcount, hpack]
        exact (Nat.zero_add _).trans (List.length_map _)
      pending_lt := by
        rw [hpending]
        exact hkeeps.current_lt
      page_dvd_pending := by
        rw [Writer.pendingBytes, hblock]
        exact Block.dvd_len_ofRecords hp _
      payload_le := by
        intro frame hmem
        obtain ⟨batch, hbatch, rfl⟩ := List.mem_map.mp hmem
        rw [length_payload_frameOf hp limit]
        exact hkeeps.closed_le batch hbatch
      page_dvd_payload := by
        intro frame hmem
        obtain ⟨batch, _, rfl⟩ := List.mem_map.mp hmem
        rw [length_payload_frameOf hp limit, ← WriterOptions.len_ofRecords hp limit]
        exact Block.dvd_len_ofRecords hp _ }

/-- A writer divides records into blocks as the greedy partition does. It refuses the records that
are too large and nothing else, and the sizes of its blocks follow from padded sizes and flushes. -/
theorem follows_greedy_partition (hv : options.validate = .ok ()) (hsink : Sink.TakesAll sink)
    (hlimit : limit ≤ Block.sizeLimit) (hopen : Request.close ∉ requests)
    (hword : ∀ record ∈ written requests, record.content.length < UInt64.size)
    (hshort : options.ShortHeaders
      ((options.batches limit requests).closed.map (Block.ofRecords options.page))) :
    let partition := options.batches limit requests
    let session := (startWithin sink options limit).after requests
    (∃ frames, session.taken = Sink.taken sink ++ Frame.encodeAll frames ∧
      session.Batched options limit partition frames) ∧
    ((startWithin sink options limit).run requests).map Prod.fst =
      requests.map (fun request => .worked (verdict options limit request)) ∧
    (∀ batch ∈ partition.closed,
      options.blockThreshold ≤ (options.batchRule limit).total batch →
        ∃ front last, batch = front ++ [last] ∧
          (options.batchRule limit).total front < options.blockThreshold) ∧
    partition.map (options.batchRule limit).size =
      BatchRule.partition { size := id, limit := limit, threshold := options.blockThreshold }
        (requests.map fun request => request.record?.map (options.batchRule limit).size) := by
  intro partition session
  have hdue := allDue_pack hv hlimit hopen hword hshort
  have hsizes : partition.map (options.batchRule limit).size =
      (options.batchRule limit).ofSizes.partition
        ((requests.map Request.record?).map (Option.map (options.batchRule limit).size)) :=
    BatchRule.map_partition _ _
  rw [List.map_map] at hsizes
  refine ⟨emits_batches hv hsink hlimit hopen hword hdue,
    answers_of_takesAll hsink hlimit hopen hdue, ?_, hsizes⟩
  exact (WriterOptions.keeps_batches hv limit requests).filled

/-- Two records of which the second closes two blocks, an empty record that only a flush gets out,
a record that no block can hold, a flush of nothing, and a record that stays pending. -/
def everyBoundary : List Request :=
  [.write ⟨"a", [1, 2, 3, 4, 5]⟩, .write ⟨"b", [1, 2, 3, 4, 5, 6, 7, 8, 9]⟩, .write ⟨"c", []⟩,
    .flush, .write ⟨"d", [1, 2, 3, 4, 5, 6, 7, 8, 9, 10, 11, 12, 13]⟩, .flush, .write ⟨"e", [1]⟩]

theorem follows_greedy_partition_everyBoundary :
    let options : WriterOptions := { pageSize := 4, blockThreshold := 12 }
    let partition := options.batches 12 everyBoundary
    let session := (startWithin ({} : Buffer) options 12).after everyBoundary
    partition.map FileRecord.name = ⟨[["a"], ["b"], ["c"], []], ["e"]⟩ ∧
    (∃ frames, session.taken = [] ++ Frame.encodeAll frames ∧
      session.Batched options 12 partition frames) ∧
    ((startWithin ({} : Buffer) options 12).run everyBoundary).map Prod.fst =
      everyBoundary.map (fun request => .worked (verdict options 12 request)) :=
  have h := @follows_greedy_partition Buffer Bytes _ {} { pageSize := 4, blockThreshold := 12 } 12
    everyBoundary (by decide) (Buffer.takesAll {}) (by decide) (by decide) (by decide)
    (by decide +kernel)
  ⟨by decide +kernel, h.1, h.2.1⟩

end PlaneArchive.Session
