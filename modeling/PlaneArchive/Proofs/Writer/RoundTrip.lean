import PlaneArchive.Proofs.Writer.Batches
import PlaneArchive.Proofs.Writer.Emission

/-! # What was written can be read back

Over a buffer, every request succeeds as long as every record fits a frame and every header fits
its length field. The finished stream is then made up of self-contained frames, and their records,
frame by frame, are the records that were written.
-/
namespace PlaneArchive

/-- A frame that was written with the given options and holds nothing but records and zero bytes. -/
structure WriterOptions.Describes (options : WriterOptions) (frame : Frame) : Prop where
  magic_eq : frame.header.magic? = some options.format.magic
  version_eq : frame.header.version? = some options.format.version
  layout_eq : frame.header.layoutCode? = some options.layout.code
  pageSize_eq : frame.header.pageSize? = some options.pageSize
  payloadSize_eq : frame.header.payloadSize.toNat = frame.payload.length
  padding_zero : ∀ byte ∈ frame.recover.padding, byte = 0
  leftover_nil : frame.recover.leftover = []

/-- The length of the header of every closed block fits four bytes. -/
def WriterOptions.ShortHeaders (options : WriterOptions) (blocks : List Block) : Prop :=
  ∀ block ∈ blocks, (options.frameOf block).header.encode.length < UInt32.size

instance (options : WriterOptions) (blocks : List Block) :
    Decidable (options.ShortHeaders blocks) :=
  inferInstanceAs (Decidable (∀ block ∈ blocks, _ < _))

def WriterOptions.AllDue (options : WriterOptions) (blocks : List Block) : Prop :=
  ∀ block ∈ blocks, options.dueFrame? block = some (options.frameOf block)

namespace WriterOptions

variable {options : WriterOptions} {blocks : List Block} {current : Block}
  {batches : List (List FileRecord)} {pending : List FileRecord}

theorem AllDue.earlier {limit : ℕ} {requests more : List Request}
    (h : options.AllDue (options.pack limit (requests ++ more)).closed) :
    options.AllDue (options.pack limit requests).closed := fun block hmem =>
  h block ((options.closed_pack_prefix limit requests more).subset hmem)

theorem frame_eq_of_holds (hv : options.validate = .ok ())
    (h : Holds options.page blocks current batches pending) {block : Block}
    (hmem : block ∈ blocks) :
    options.frame block = .ok (options.frameOf block) := by
  have hbatch := hmem
  rw [h.closed_eq] at hbatch
  obtain ⟨batch, _, rfl⟩ := List.mem_map.mp hbatch
  exact frame_eq_frameOf hv (Block.dvd_len_ofRecords (page_pos hv) batch) (h.closed_le _ hmem)

theorem allDue_of_holds (hv : options.validate = .ok ())
    (h : Holds options.page blocks current batches pending)
    (hshort : options.ShortHeaders blocks) : options.AllDue blocks := by
  intro block hmem
  rw [dueFrame?_eq_some_iff]
  exact ⟨frame_eq_of_holds hv h hmem, hshort block hmem⟩

theorem describes_frameOf (hv : options.validate = .ok ()) {batch : List FileRecord}
    (hfit : ∀ record ∈ batch, record.Fits options.page)
    (hdue : options.dueFrame? (Block.ofRecords options.page batch) =
      some (options.frameOf (Block.ofRecords options.page batch))) :
    options.Describes (options.frameOf (Block.ofRecords options.page batch)) ∧
      (options.frameOf (Block.ofRecords options.page batch)).recover.records = batch := by
  have hsmall : ∀ record ∈ batch, record.content.length < UInt32.size := by
    intro record hmem
    have hle := le_roundUp (page_pos hv) record.content.length
    exact Block.lt_of_le_sizeLimit (hle.trans (hfit record hmem))
  have hrecover : (options.frameOf (Block.ofRecords options.page batch)).recover =
      ⟨batch, batch.flatMap (FileRecord.filler options.page), []⟩ :=
    recover_frameOf (page_pos hv) hsmall
  constructor
  · exact {
      magic_eq := rfl
      version_eq := rfl
      layout_eq := rfl
      pageSize_eq := rfl
      payloadSize_eq := (wellFormed_of_dueFrame? hdue).payloadSize_eq
      padding_zero := by
        rw [hrecover]
        intro byte hmem
        obtain ⟨record, _, hfiller⟩ := List.mem_flatMap.mp hmem
        exact List.eq_of_mem_replicate hfiller
      leftover_nil := by rw [hrecover] }
  · rw [hrecover]

theorem wellFormed_of_allDue (hdue : options.AllDue blocks) :
    ∀ frame ∈ blocks.map options.frameOf, frame.WellFormed := by
  intro frame hmem
  obtain ⟨block, hblock, rfl⟩ := List.mem_map.mp hmem
  exact wellFormed_of_dueFrame? (hdue block hblock)

section Held

variable (hv : options.validate = .ok ())
  (hfit : ∀ record ∈ batches.flatten, record.Fits options.page)
  (h : Holds options.page blocks current batches pending) (hdue : options.AllDue blocks)
include hv hfit h hdue

theorem describes_of_holds {batch : List FileRecord} (hmem : batch ∈ batches) :
    options.Describes (options.frameOf (Block.ofRecords options.page batch)) ∧
      (options.frameOf (Block.ofRecords options.page batch)).recover.records = batch := by
  have hblock : Block.ofRecords options.page batch ∈ blocks := by
    rw [h.closed_eq]
    exact List.mem_map_of_mem hmem
  refine describes_frameOf hv ?_ (hdue _ hblock)
  intro record hrecord
  exact hfit record (List.mem_flatten.mpr ⟨batch, hmem, hrecord⟩)

/-- The frames of blocks that hold batches of records give the records of the batches, and describe
how they have been made. -/
theorem recovers_of_holds :
    (blocks.map options.frameOf).flatMap (fun frame => frame.recover.records) = batches.flatten ∧
      ∀ frame ∈ blocks.map options.frameOf, options.Describes frame := by
  rw [h.closed_eq, List.map_map]
  constructor
  · rw [List.flatMap_map]
    exact (List.flatMap_congr fun batch hmem =>
      (describes_of_holds hv hfit h hdue hmem).2).trans List.flatMap_id
  · intro frame hmem
    obtain ⟨batch, hbatch, rfl⟩ := List.mem_map.mp hmem
    exact (describes_of_holds hv hfit h hdue hbatch).1

end Held

end WriterOptions

/-- Any writer over a sink that takes everything writes the frames of a packing behind what the
sink has taken before. -/
theorem Writer.settled_of_allDue {σ ι : Type} [Sink σ ι] (start : Writer σ) {packing : Packing}
    (hsink : Sink.TakesAll start.sink) (hdue : start.options.AllDue packing.closed) :
    ∃ after, start.settled packing = (.ok (), after) ∧ Sink.TakesAll after.sink ∧
      Sink.taken after.sink = Sink.taken start.sink ++
        Frame.encodeAll (packing.closed.map start.options.frameOf) ∧
      after.blocksWritten = start.blocksWritten + packing.closed.length := by
  have hdelivers := Writer.delivers_writeBlocks hsink packing.closed
  have hframes : start.options.dueFrames packing.closed =
      packing.closed.map start.options.frameOf := WriterOptions.dueFrames_eq_map hdue
  unfold Writer.settled
  cases hw : start.writeBlocks packing.closed with
  | mk outcome after =>
    rw [hw] at hdelivers
    obtain ⟨htaken, hmore, hcount, hok⟩ := hdelivers
    rw [hframes] at htaken hcount hok
    rw [List.length_map] at hcount hok
    cases hok rfl
    exact ⟨{ after with block := packing.current }, rfl, hmore, htaken, hcount⟩

namespace Session

variable {options : WriterOptions} {requests : List Request}

abbrev overBuffer (options : WriterOptions) : Session Buffer := start {} options

theorem run_append_singleton {σ ι : Type} [Sink σ ι] (session : Session σ)
    (requests : List Request) (request : Request) :
    session.run (requests ++ [request]) =
      session.run requests ++ [(session.after requests).perform request] := by
  induction requests generalizing session with
  | nil => rfl
  | cons first requests ih =>
    rw [List.cons_append, run, run, ih]
    rfl

/-- Over a sink that takes everything the frames of all closed blocks have been written. -/
theorem settled_of_takesAll {σ ι : Type} [Sink σ ι] {sink : σ} (hsink : Sink.TakesAll sink)
    (hdue : options.AllDue (options.pack Block.sizeLimit requests).closed) :
    let packing := options.pack Block.sizeLimit requests
    ∃ after, (start sink options).writer.settled packing = (.ok (), after) ∧
      Sink.TakesAll after.sink ∧
      Sink.taken after.sink = Sink.taken sink ++
        Frame.encodeAll (packing.closed.map options.frameOf) ∧
      after.blocksWritten = packing.closed.length := by
  obtain ⟨after, hafter, hmore, htaken, hcount⟩ :=
    Writer.settled_of_allDue (start sink options).writer hsink hdue
  exact ⟨after, hafter, hmore, htaken, hcount.trans (Nat.zero_add _)⟩

theorem settled_overBuffer
    (hdue : options.AllDue (options.pack Block.sizeLimit requests).closed) :
    let packing := options.pack Block.sizeLimit requests
    ∃ after, (overBuffer options).writer.settled packing = (.ok (), after) ∧
      after.sink.bytes = Frame.encodeAll (packing.closed.map options.frameOf) := by
  obtain ⟨after, hafter, _, htaken, _⟩ := settled_of_takesAll (Buffer.takesAll {}) hdue
  exact ⟨after, hafter, htaken⟩

/-- When all records fit, the next request carries on with the packing, whatever the sink does. -/
theorem work_of_fits {σ ι : Type} [Sink σ ι] {sink : σ} {before : Writer σ} {request : Request}
    (hv : options.validate = .ok ()) (hopen : Request.close ∉ requests)
    (hfit : ∀ record ∈ written (requests ++ [request]), record.Fits options.page)
    (hbefore : (start sink options).writer.settled (options.pack Block.sizeLimit requests) =
      (.ok (), before)) :
    before.work request = (start sink options).writer.settled
      (options.pack Block.sizeLimit (requests ++ [request])) := by
  rw [written_append] at hfit
  have hstill := (WriterOptions.holds_pack hv hopen fun record hmem =>
    hfit record (List.mem_append_left _ hmem)).1
  have hnone : options.refusal? Block.sizeLimit request = none := by
    cases request with
    | write record =>
      have hrecord : record.Fits options.page :=
        hfit record (List.mem_append_right _ List.mem_cons_self)
      rw [WriterOptions.refusal?, WriterOptions.fit_of_le hv le_rfl hrecord]
    | flush => rfl
    | close => rfl
  rw [WriterOptions.pack_append_singleton]
  exact Writer.work_of_settled (fresh_start sink options) hstill hbefore hnone

/-- The next request succeeds too, and the buffer then holds the frames of all closed blocks. -/
theorem work_overBuffer (hv : options.validate = .ok ()) {request : Request}
    (hopen : Request.close ∉ requests)
    (hfit : ∀ record ∈ written (requests ++ [request]), record.Fits options.page)
    (hdue : options.AllDue (options.pack Block.sizeLimit (requests ++ [request])).closed) :
    ∃ after, ((overBuffer options).after requests).isOpen = true ∧
      ((overBuffer options).after requests).writer.work request = (.ok (), after) ∧
      after.sink.bytes = Frame.encodeAll
        ((options.pack Block.sizeLimit (requests ++ [request])).closed.map options.frameOf) := by
  obtain ⟨before, hbefore, _⟩ := settled_overBuffer hdue.earlier
  obtain ⟨after, hafter, hbytes⟩ := settled_overBuffer hdue
  have hstill := (WriterOptions.holds_pack hv hopen fun record hmem => hfit record (by
    rw [written_append]
    exact List.mem_append_left _ hmem)).1
  have hsession : (overBuffer options).after requests = ⟨before, true⟩ := by
    rw [after_start, hbefore, hstill]
  rw [hsession]
  exact ⟨after, rfl, (work_of_fits hv hopen hfit hbefore).trans hafter, hbytes⟩

theorem answers_overBuffer (hv : options.validate = .ok ()) (hopen : Request.close ∉ requests)
    (hfit : ∀ record ∈ written requests, record.Fits options.page)
    (hdue : options.AllDue (options.pack Block.sizeLimit requests).closed) :
    ((overBuffer options).run requests).map Prod.fst =
      requests.map fun _ => .worked (.ok ()) := by
  induction requests using List.reverseRecOn with
  | nil => rfl
  | append_singleton requests request ih =>
    rw [List.mem_append, List.mem_singleton, not_or] at hopen
    obtain ⟨after, hstill, hwork, _⟩ := work_overBuffer hv hopen.1 hfit hdue
    have hearlier : ∀ record ∈ written requests, record.Fits options.page := by
      intro record hmem
      rw [written_append] at hfit
      exact hfit record (List.mem_append_left _ hmem)
    rw [run_append_singleton, List.map_append, List.map_append, ih hopen.1 hearlier hdue.earlier,
      List.map_singleton, perform_of_open hstill, hwork]
    cases request with
    | write record => rfl
    | flush => rfl
    | close => exact absurd rfl hopen.2

/-- Whatever is written before the close is read back from the finished stream, frame by frame. -/
theorem run_recovers_written (hv : options.validate = .ok ()) (hopen : Request.close ∉ requests)
    (hfit : ∀ record ∈ written requests, record.Fits options.page)
    (hshort : options.ShortHeaders
      (options.pack Block.sizeLimit (requests ++ [.close])).closed) :
    ∃ writer stream frames, Writer.create ({} : Buffer) options = .ok writer ∧
      (Session.run { writer } (requests ++ [.close])).map Prod.fst =
        requests.map (fun _ => .worked (.ok ())) ++ [.finished (.ok stream)] ∧
      Frame.decodeAll? stream = some frames ∧
      frames.flatMap (fun frame => frame.recover.records) = written requests ∧
      ∀ frame ∈ frames, options.Describes frame := by
  obtain ⟨batches, hholds, hrecords⟩ := WriterOptions.holds_pack_close hv hopen hfit
  have hdue := WriterOptions.allDue_of_holds hv hholds hshort
  have hwritten : written (requests ++ [.close]) = written requests := by
    rw [written_append]
    exact List.append_nil _
  obtain ⟨after, hstill, hwork, hbytes⟩ := work_overBuffer hv hopen (hwritten ▸ hfit) hdue
  have hanswers := answers_overBuffer hv hopen hfit hdue.earlier
  have hframes : ∀ batch ∈ batches,
      options.Describes (options.frameOf (Block.ofRecords options.page batch)) ∧
        (options.frameOf (Block.ofRecords options.page batch)).recover.records = batch := by
    intro batch hmem
    refine WriterOptions.describes_frameOf hv ?_ ?_
    · intro record hrecord
      exact hfit record (hrecords ▸ List.mem_flatten.mpr ⟨batch, hmem, hrecord⟩)
    · refine hdue _ ?_
      rw [hholds.closed_eq]
      exact List.mem_map_of_mem hmem
  rw [hholds.closed_eq, List.map_map] at hbytes
  refine ⟨_, after.sink.bytes,
    batches.map (options.frameOf ∘ Block.ofRecords options.page), create_eq_start hv _, ?_, ?_, ?_,
    ?_⟩
  · rw [run_append_singleton, List.map_append]
    change ((overBuffer options).run requests).map Prod.fst ++
      [(((overBuffer options).after requests).perform .close).1] = _
    rw [hanswers, perform_of_open hstill, hwork]
    rfl
  · rw [hbytes]
    refine Frame.decodeAll?_encodeAll fun frame hmem => ?_
    obtain ⟨batch, hbatch, rfl⟩ := List.mem_map.mp hmem
    refine WriterOptions.wellFormed_of_dueFrame? (hdue (Block.ofRecords options.page batch) ?_)
    rw [hholds.closed_eq]
    exact List.mem_map_of_mem hbatch
  · rw [← hrecords, List.flatMap_map]
    refine (List.flatMap_congr fun batch hmem => ?_).trans List.flatMap_id
    exact (hframes batch hmem).2
  · intro frame hmem
    obtain ⟨batch, hbatch, rfl⟩ := List.mem_map.mp hmem
    exact (hframes batch hbatch).1

/-- A short record, an empty one, a flush, a record larger than a block, and one flush more. -/
def severalBlocks : List Request :=
  [.write ⟨"a", [1, 2, 3]⟩, .write ⟨"b", []⟩, .flush,
    .write ⟨"c", [4, 5, 6, 7, 8, 9, 10, 11, 12]⟩, .flush]

theorem run_recovers_severalBlocks :
    ∃ writer stream frames,
      Writer.create ({} : Buffer) { pageSize := 4, blockThreshold := 8 } = .ok writer ∧
      (Session.run { writer } (severalBlocks ++ [.close])).map Prod.fst =
        severalBlocks.map (fun _ => .worked (.ok ())) ++ [.finished (.ok stream)] ∧
      Frame.decodeAll? stream = some frames ∧
      frames.flatMap (fun frame => frame.recover.records) = written severalBlocks ∧
      ∀ frame ∈ frames,
        WriterOptions.Describes { pageSize := 4, blockThreshold := 8 } frame :=
  run_recovers_written (by decide) (by decide) (by decide) (by decide +kernel)

end Session

end PlaneArchive
