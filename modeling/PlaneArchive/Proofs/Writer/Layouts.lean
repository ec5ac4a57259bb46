import PlaneArchive.Proofs.Sink.Lengths
import PlaneArchive.Proofs.Wire.Canonical
import PlaneArchive.Proofs.Writer.Failures

/-! # Writers that differ in layout and tuning

The layout of payloads and the way in which they are transposed decide nothing but the arrangement
of payloads. Two writers whose options differ in nothing else go through the same requests side by
side: their blocks are the same, their frames differ in the arrangement and its code, and since
all lengths agree, a sink that goes by lengths fails both of them at the same request.
-/
namespace PlaneArchive

open Wire

namespace WriterOptions

/-- Valid options that cut records into the same blocks and stamp them alike. -/
structure Alike (options other : WriterOptions) : Prop where
  valid : options.validate = .ok ()
  other_valid : other.validate = .ok ()
  pageSize_eq : other.pageSize = options.pageSize
  blockThreshold_eq : other.blockThreshold = options.blockThreshold
  format_eq : other.format = options.format

namespace Alike

variable {options other : WriterOptions} {block : Block}

theorem page_eq (h : options.Alike other) : other.page = options.page := by
  simp only [page, h.pageSize_eq]

theorem fit_eq (h : options.Alike other) (limit : ℕ) (record : FileRecord) :
    other.fit limit record = options.fit limit record := by
  simp only [fit, h.pageSize_eq]

theorem refusal?_eq (h : options.Alike other) (limit : ℕ) (request : Request) :
    other.refusal? limit request = options.refusal? limit request := by
  cases request <;> simp only [refusal?, h.fit_eq]

theorem cutOf_eq (h : options.Alike other) (limit : ℕ) (block : Block) (request : Request) :
    other.cutOf limit block request = options.cutOf limit block request := by
  cases request <;> simp only [cutOf, h.fit_eq, cut, cutGrown, h.blockThreshold_eq]

end Alike

theorem arranged_of_plain {options : WriterOptions} (hlayout : options.layout = .plain)
    (payload : Bytes) : options.arranged payload = payload := by
  simp only [arranged, hlayout]

/-- What a transposed payload is does not depend on how the transposition is carried out. -/
theorem run_eq_arranged {options : WriterOptions} (hv : options.validate = .ok ())
    (hlayout : options.layout = .transposed) {payload : Bytes}
    (hpages : options.page ∣ payload.length) {tuning : TransposeOptions}
    (htile : tuning.tileSize ≠ 0) (hworkers : tuning.workers ≠ 0) :
    Transpose.run tuning options.page payload = .ok (options.arranged payload) := by
  simp only [arranged, hlayout]
  exact Transpose.run_of_sound ⟨htile, hworkers, (page_pos hv).ne', hpages⟩

/-- Both layouts have a code of one byte. -/
theorem length_encode_layout (layout : Layout) :
    (encodeNumber? 4 (some (ofInt32 layout.code))).length = 2 := by
  have hcode : ofInt32 layout.code < 128 := by cases layout <;> decide
  have hkey : 4 * 8 + WireType.varint.code < 128 := by decide
  simp [encodeNumber?, encodeNumber, Key.encode, Varint.encode_of_lt hcode,
    Varint.encode_of_lt hkey]

end WriterOptions

/-- The frames of one block under two options. -/
structure Frame.Corresponds (options other : WriterOptions) (frame counterpart : Frame) : Prop where
  wellFormed : frame.WellFormed
  counterpart_wellFormed : counterpart.WellFormed
  layoutCode_eq : frame.header.layoutCode? = some options.layout.code
  header_eq : counterpart.header = { frame.header with layoutCode? := some other.layout.code }
  header_length : counterpart.header.encode.length = frame.header.encode.length
  payload_length : counterpart.payload.length = frame.payload.length
  same : options.layout = other.layout → counterpart.payload = frame.payload
  transposed : options.layout = .plain → other.layout = .transposed →
    ∀ tuning : TransposeOptions, tuning.tileSize ≠ 0 → tuning.workers ≠ 0 →
      Transpose.run tuning options.page frame.payload = .ok counterpart.payload
  plain : options.layout = .transposed → other.layout = .plain →
    ∀ tuning : TransposeOptions, tuning.tileSize ≠ 0 → tuning.workers ≠ 0 →
      Transpose.run tuning options.page counterpart.payload = .ok frame.payload

namespace Frame

variable {options other : WriterOptions} {frame counterpart : Frame}
  {frames counterparts : List Frame}

theorem Corresponds.length_encode (h : frame.Corresponds options other counterpart) :
    counterpart.encode.length = frame.encode.length := by
  rw [Frame.length_encode, Frame.length_encode, h.header_length, h.payload_length]

/-- Corresponding frames end at the same places. -/
theorem lengths_of_corresponds (h : List.Forall₂ (Corresponds options other) frames counterparts) :
    counterparts.map (fun frame => frame.encode.length) =
      frames.map (fun frame => frame.encode.length) := by
  induction h with
  | nil => rfl
  | cons hpair _ ih => simp only [List.map_cons, hpair.length_encode, ih]

theorem decodeAll?_of_corresponds
    (h : List.Forall₂ (Corresponds options other) frames counterparts) :
    decodeAll? (encodeAll frames) = some frames ∧
      decodeAll? (encodeAll counterparts) = some counterparts := by
  have hwell : (∀ frame ∈ frames, frame.WellFormed) ∧
      ∀ frame ∈ counterparts, frame.WellFormed := by
    induction h with
    | nil => simp
    | cons hpair _ ih =>
      exact ⟨List.forall_mem_cons.mpr ⟨hpair.wellFormed, ih.1⟩,
        List.forall_mem_cons.mpr ⟨hpair.counterpart_wellFormed, ih.2⟩⟩
  exact ⟨decodeAll?_encodeAll hwell.1, decodeAll?_encodeAll hwell.2⟩

end Frame

namespace WriterOptions.Alike

variable {options other : WriterOptions} {block : Block}

theorem length_header_eq (h : options.Alike other) (block : Block) :
    (other.frameOf block).header.encode.length = (options.frameOf block).header.encode.length := by
  simp only [frameOf, Header.ofBlock, Header.encode, List.length_append, Option.map_some,
    length_encode_layout, h.pageSize_eq, h.format_eq]

theorem arranged_eq (h : options.Alike other) (hlayout : options.layout = other.layout)
    (payload : Bytes) : other.arranged payload = options.arranged payload := by
  simp only [arranged, h.page_eq, hlayout]

theorem corresponds (h : options.Alike other) (hpages : options.page ∣ block.len)
    (hframe : options.dueFrame? block = some (options.frameOf block))
    (hother : other.dueFrame? block = some (other.frameOf block)) :
    (options.frameOf block).Corresponds options other (other.frameOf block) := by
  have hpayload : options.page ∣ block.payload.length := by rwa [block.length_payload]
  exact {
    wellFormed := wellFormed_of_dueFrame? hframe
    counterpart_wellFormed := wellFormed_of_dueFrame? hother
    layoutCode_eq := rfl
    header_eq := by simp only [frameOf, Header.ofBlock, h.pageSize_eq, h.format_eq]
    header_length := h.length_header_eq block
    payload_length := by simp only [frameOf, length_arranged]
    same := fun hlayout => h.arranged_eq hlayout block.payload
    transposed := by
      intro hplain htransposed tuning htile hworkers
      simp only [frameOf, arranged_of_plain hplain]
      rw [← h.page_eq] at hpayload ⊢
      exact run_eq_arranged h.other_valid htransposed hpayload htile hworkers
    plain := by
      intro htransposed hplain tuning htile hworkers
      simp only [frameOf, arranged_of_plain hplain]
      exact run_eq_arranged h.valid htransposed hpayload htile hworkers }

end WriterOptions.Alike

/-- Related sinks that take corresponding frames, and are finished, with the same success. -/
structure Sink.Lockstep {σ ι : Type} [Sink σ ι] (R : σ → σ → Prop)
    (options other : WriterOptions) : Prop where
  outcome_eq : ∀ sink twin (frame counterpart : Frame), R sink twin →
    frame.Corresponds options other counterpart →
      (writeParts twin counterpart.parts).1 = (writeParts sink frame.parts).1
  kept : ∀ sink twin (frame counterpart : Frame), R sink twin →
    frame.Corresponds options other counterpart →
      R (writeParts sink frame.parts).2 (writeParts twin counterpart.parts).2
  finish_eq : ∀ sink twin, R sink twin →
    (finish twin).map (fun _ => ()) = (finish sink).map (fun _ => ())

namespace Writer

variable {σ ι : Type} [Sink σ ι] {R : σ → σ → Prop} {options other : WriterOptions} {limit : ℕ}
  {writer twin : Writer σ}

/-- Writers that have come equally far under two options. -/
structure Twins (R : σ → σ → Prop) (options other : WriterOptions) (limit : ℕ)
    (writer twin : Writer σ) : Prop where
  sinks : R writer.sink twin.sink
  options_eq : writer.options = options
  other_eq : twin.options = other
  limit_eq : writer.payloadLimit = limit
  other_limit_eq : twin.payloadLimit = limit
  block_eq : twin.block = writer.block
  count_eq : twin.blocksWritten = writer.blocksWritten
  poisoned_eq : twin.poisoned = writer.poisoned
  batched : ∃ held, (options.batchRule limit).Keeps held ∧
    writer.block = Block.ofRecords options.page held.current

theorem writeBlock_of_long {block : Block} {frame : Frame}
    (hframe : writer.options.frame block = .ok frame)
    (hlong : UInt32.size ≤ frame.header.encode.length) :
    writer.writeBlock block =
      (.error (.unexpected (.headerTooLarge frame.header.encode.length)), writer) := by
  rw [writeBlock, hframe]
  simp only [Frame.write_eq, if_pos hlong]

namespace Twins

variable (hsinks : Sink.Lockstep R options other) (halike : options.Alike other)
include hsinks halike

theorem writeBlock (h : Twins R options other limit writer twin) {block : Block}
    (hpages : options.page ∣ block.len) (hsize : block.len ≤ Block.sizeLimit) :
    (twin.writeBlock block).1 = (writer.writeBlock block).1 ∧
      Twins R options other limit (writer.writeBlock block).2 (twin.writeBlock block).2 := by
  have hframe : options.frame block = .ok (options.frameOf block) :=
    WriterOptions.frame_eq_frameOf halike.valid hpages hsize
  have hother : other.frame block = .ok (other.frameOf block) :=
    WriterOptions.frame_eq_frameOf halike.other_valid (halike.page_eq ▸ hpages) hsize
  have hlength := halike.length_header_eq block
  by_cases hshort : (options.frameOf block).header.encode.length < UInt32.size
  · have hdue := WriterOptions.dueFrame?_eq_some_iff.mpr ⟨hframe, hshort⟩
    have hdue' := WriterOptions.dueFrame?_eq_some_iff.mpr ⟨hother, hlength ▸ hshort⟩
    have hpair := halike.corresponds hpages hdue hdue'
    have houtcome := hsinks.outcome_eq _ _ _ _ h.sinks hpair
    have hkept := hsinks.kept _ _ _ _ h.sinks hpair
    rw [writeBlock_of_some ((congrArg (·.dueFrame? block) h.options_eq).trans hdue),
      writeBlock_of_some ((congrArg (·.dueFrame? block) h.other_eq).trans hdue')]
    cases hw : Sink.writeParts writer.sink (options.frameOf block).parts with
    | mk outcome sink =>
      cases hw' : Sink.writeParts twin.sink (other.frameOf block).parts with
      | mk outcome' sink' =>
        rw [hw, hw'] at houtcome hkept
        obtain rfl : outcome' = outcome := houtcome
        cases outcome' with
        | ok _ => exact ⟨rfl, { h with sinks := hkept, count_eq := congrArg (· + 1) h.count_eq }⟩
        | error cause => exact ⟨rfl, { h with sinks := hkept }⟩
  · have hlong := Nat.le_of_not_lt hshort
    rw [writeBlock_of_long ((congrArg (·.frame block) h.options_eq).trans hframe) hlong,
      writeBlock_of_long ((congrArg (·.frame block) h.other_eq).trans hother) (hlength ▸ hlong)]
    exact ⟨by rw [hlength], h⟩

theorem writeBlocks (h : Twins R options other limit writer twin) {blocks : List Block}
    (hwhole : ∀ block ∈ blocks, options.page ∣ block.len ∧ block.len ≤ Block.sizeLimit) :
    (twin.writeBlocks blocks).1 = (writer.writeBlocks blocks).1 ∧
      Twins R options other limit (writer.writeBlocks blocks).2 (twin.writeBlocks blocks).2 := by
  induction blocks generalizing writer twin with
  | nil => exact ⟨rfl, h⟩
  | cons block blocks ih =>
    obtain ⟨hpages, hsize⟩ := hwhole block List.mem_cons_self
    obtain ⟨houtcome, hkept⟩ := h.writeBlock hsinks halike hpages hsize
    simp only [Writer.writeBlocks]
    cases hw : writer.writeBlock block with
    | mk outcome between =>
      cases hw' : twin.writeBlock block with
      | mk outcome' between' =>
        rw [hw, hw'] at houtcome hkept
        obtain rfl : outcome' = outcome := houtcome
        cases outcome' with
        | ok _ => exact ih hkept fun later hmem => hwhole later (List.mem_cons_of_mem _ hmem)
        | error e => exact ⟨rfl, hkept⟩

theorem carryOut (h : Twins R options other limit writer twin) {cut : Cut}
    (hwhole : ∀ block ∈ cut.closed, options.page ∣ block.len ∧ block.len ≤ Block.sizeLimit)
    (hcurrent : ∃ held, (options.batchRule limit).Keeps held ∧
      cut.current = Block.ofRecords options.page held.current) :
    (twin.carryOut cut).1 = (writer.carryOut cut).1 ∧
      Twins R options other limit (writer.carryOut cut).2 (twin.carryOut cut).2 := by
  obtain ⟨houtcome, hkept⟩ := h.writeBlocks hsinks halike hwhole
  simp only [Writer.carryOut]
  cases hw : writer.writeBlocks cut.closed with
  | mk outcome after =>
    cases hw' : twin.writeBlocks cut.closed with
    | mk outcome' after' =>
      rw [hw, hw'] at houtcome hkept
      obtain rfl : outcome' = outcome := houtcome
      cases outcome' with
      | ok _ => exact ⟨rfl, { hkept with block_eq := rfl, batched := hcurrent }⟩
      | error e =>
        have hthreshold : 0 < options.blockThreshold :=
          Nat.pos_of_ne_zero (WriterOptions.validate_eq_ok_iff.mp halike.valid).2.1
        have hnothing : ∃ held, (options.batchRule limit).Keeps held ∧
            Block.empty = Block.ofRecords options.page held.current :=
          ⟨{}, BatchRule.keeps_nothing hthreshold, rfl⟩
        exact ⟨rfl, { hkept with block_eq := rfl, poisoned_eq := rfl, batched := hnothing }⟩

/-- One request has the same success with both writers. -/
theorem work (h : Twins R options other limit writer twin) (hlimit : limit ≤ Block.sizeLimit)
    {request : Request}
    (hword : ∀ record ∈ written [request], record.content.length < UInt64.size) :
    (twin.work request).1 = (writer.work request).1 ∧
      Twins R options other limit (writer.work request).2 (twin.work request).2 := by
  by_cases hp : writer.poisoned = true
  · rw [work_of_poisoned hp, work_of_poisoned (h.poisoned_eq.trans hp)]
    exact ⟨rfl, h⟩
  · have hp := Bool.eq_false_iff.mpr hp
    obtain ⟨held, hheld, hblock⟩ := h.batched
    obtain ⟨_, hcurrent⟩ := WriterOptions.advances_cutOf halike.valid hlimit hword held
    rw [work_eq hp (h.limit_eq ▸ hlimit),
      work_eq (h.poisoned_eq.trans hp) (h.other_limit_eq ▸ hlimit), h.options_eq, h.other_eq,
      h.limit_eq, h.other_limit_eq, h.block_eq, hblock, halike.refusal?_eq, halike.cutOf_eq]
    cases options.refusal? limit request with
    | some e => exact ⟨rfl, h⟩
    | none =>
      exact h.carryOut hsinks halike
        (fun _ => WriterOptions.whole_of_mem_cutOf halike.valid hlimit hheld hword)
        ⟨_, hheld.step request.record?, hcurrent.symm⟩

end Twins

end Writer

/-- The answer without what is left of the sink after closing. -/
def Answer.forget {ι : Type} : Answer ι → Answer Unit
  | .worked outcome => .worked outcome
  | .finished outcome => .finished (outcome.map fun _ => ())
  | .alreadyClosed => .alreadyClosed

/-- What the owner of a writer sees of a request. -/
structure Report where
  answer : Answer Unit
  blocksWritten : ℕ
  pendingFiles : ℕ
  pendingBytes : ℕ

/-- The first request that failed, if one did. -/
def Report.firstFailure? (reports : List Report) : Option ℕ :=
  reports.findIdx? fun report => report.answer.error?.isSome

namespace Session

variable {σ ι : Type} [Sink σ ι] {R : σ → σ → Prop} {options other : WriterOptions} {limit : ℕ}
  {session mirrored : Session σ} {requests : List Request}

def report (step : Answer ι × Session σ) : Report where
  answer := step.1.forget
  blocksWritten := step.2.writer.blocksWritten
  pendingFiles := step.2.writer.pendingFiles
  pendingBytes := step.2.writer.pendingBytes

def reports (session : Session σ) (requests : List Request) : List Report :=
  (session.run requests).map report

theorem reports_cons (session : Session σ) (request : Request) (requests : List Request) :
    session.reports (request :: requests) =
      report (session.perform request) :: (session.perform request).2.reports requests := rfl

/-- Sessions with writers that have come equally far. -/
structure Twins (R : σ → σ → Prop) (options other : WriterOptions) (limit : ℕ)
    (session mirrored : Session σ) : Prop where
  writers : Writer.Twins R options other limit session.writer mirrored.writer
  isOpen_eq : mirrored.isOpen = session.isOpen

theorem forget_answer (hsinks : Sink.Lockstep R options other)
    {worked mirror : Except ArchiveError Unit × Writer σ} (houtcome : mirror.1 = worked.1)
    (hrel : R worked.2.sink mirror.2.sink) (request : Request) :
    (answer request mirror : Answer ι).forget = (answer request worked : Answer ι).forget := by
  obtain ⟨outcome, after⟩ := worked
  obtain ⟨outcome', after'⟩ := mirror
  obtain rfl : outcome' = outcome := houtcome
  have hfinish := hsinks.finish_eq _ _ hrel
  cases request with
  | write record => rfl
  | flush => rfl
  | close =>
    cases outcome' with
    | error e => rfl
    | ok _ =>
      simp only [answer]
      cases hleft : Sink.finish after.sink <;> cases hright : Sink.finish after'.sink <;>
        simp_all [Except.map, Answer.forget]

namespace Twins

theorem start (halike : options.Alike other) (limit : ℕ) {sink twin : σ} (hrel : R sink twin) :
    Twins R options other limit (startWithin sink options limit)
      (startWithin twin other limit) where
  writers := {
    sinks := hrel
    options_eq := rfl
    other_eq := rfl
    limit_eq := rfl
    other_limit_eq := rfl
    block_eq := rfl
    count_eq := rfl
    poisoned_eq := rfl
    batched :=
      ⟨{}, BatchRule.keeps_nothing
        (Nat.pos_of_ne_zero (WriterOptions.validate_eq_ok_iff.mp halike.valid).2.1), rfl⟩ }
  isOpen_eq := rfl

variable (hsinks : Sink.Lockstep R options other) (halike : options.Alike other)
  (hlimit : limit ≤ Block.sizeLimit)
include hsinks halike hlimit

theorem perform (h : Twins R options other limit session mirrored) {request : Request}
    (hword : ∀ record ∈ written [request], record.content.length < UInt64.size) :
    report (mirrored.perform request) = report (session.perform request) ∧
      Twins R options other limit (session.perform request).2 (mirrored.perform request).2 := by
  by_cases hopen : session.isOpen = true
  · obtain ⟨houtcome, hwriters⟩ := h.writers.work hsinks halike hlimit hword
    have hanswer := forget_answer hsinks houtcome hwriters.sinks request
    rw [perform_of_open hopen, perform_of_open (h.isOpen_eq.trans hopen)]
    refine ⟨?_, hwriters, rfl⟩
    simp only [report, hanswer, hwriters.count_eq, Writer.pendingFiles, Writer.pendingBytes,
      hwriters.block_eq]
  · have hclosed := Bool.eq_false_iff.mpr hopen
    rw [perform_of_closed hclosed, perform_of_closed (h.isOpen_eq.trans hclosed)]
    refine ⟨?_, h⟩
    simp only [report, h.writers.count_eq, Writer.pendingFiles, Writer.pendingBytes,
      h.writers.block_eq]

/-- All requests are reported alike, and the writers are equally far after them. -/
theorem run (h : Twins R options other limit session mirrored)
    (hword : ∀ record ∈ written requests, record.content.length < UInt64.size) :
    mirrored.reports requests = session.reports requests ∧
      Twins R options other limit (session.after requests) (mirrored.after requests) := by
  induction requests generalizing session mirrored with
  | nil => exact ⟨rfl, h⟩
  | cons request requests ih =>
    have hsplit : written (request :: requests) = written [request] ++ written requests :=
      written_append [request] requests
    rw [hsplit] at hword
    obtain ⟨hfirst, hnext⟩ := h.perform hsinks halike hlimit fun record hmem =>
      hword record (List.mem_append_left _ hmem)
    obtain ⟨hreports, hafter⟩ := ih hnext fun record hmem =>
      hword record (List.mem_append_right _ hmem)
    refine ⟨?_, hafter⟩
    rw [reports_cons, reports_cons, hfirst, hreports]

end Twins

end Session

namespace Sink

variable {σ ι : Type} [Sink σ ι] {options other : WriterOptions}

/-- Two sinks that take everything have been given corresponding frames. -/
def Delivered (options other : WriterOptions) (before before' : Bytes) (sink twin : σ) : Prop :=
  TakesAll sink ∧ TakesAll twin ∧ ∃ frames counterparts,
    taken sink = before ++ Frame.encodeAll frames ∧
    taken twin = before' ++ Frame.encodeAll counterparts ∧
    List.Forall₂ (Frame.Corresponds options other) frames counterparts

theorem lockstep_delivered (options other : WriterOptions) (before before' : Bytes) :
    Lockstep (Delivered options other before before' : σ → σ → Prop) options other where
  outcome_eq := by
    rintro sink twin frame counterpart ⟨hsink, htwin, -⟩ -
    obtain ⟨after, hparts, -⟩ := hsink.writeParts_eq frame.parts
    obtain ⟨after', hparts', -⟩ := htwin.writeParts_eq counterpart.parts
    rw [hparts, hparts']
  kept := by
    rintro sink twin frame counterpart ⟨hsink, htwin, frames, counterparts, htaken, htaken', hall⟩
      hpair
    obtain ⟨after, hparts, hbytes, hmore⟩ := hsink.writeParts_eq frame.parts
    obtain ⟨after', hparts', hbytes', hmore'⟩ := htwin.writeParts_eq counterpart.parts
    rw [hparts, hparts']
    refine ⟨hmore, hmore', frames ++ [frame], counterparts ++ [counterpart], ?_, ?_, ?_⟩
    · simp [hbytes, htaken, Frame.encodeAll, Frame.encode]
    · simp [hbytes', htaken', Frame.encodeAll, Frame.encode]
    · exact List.rel_append hall (.cons hpair .nil)
  finish_eq := by
    rintro sink twin ⟨hsink, htwin, -⟩
    obtain ⟨inner, hinner⟩ := hsink.exists_finish_eq
    obtain ⟨inner', hinner'⟩ := htwin.exists_finish_eq
    simp [hinner, hinner', Except.map]

theorem lockstep_level (options other : WriterOptions) :
    Lockstep LimitedSink.Level options other := by
  have hlength : ∀ frame counterpart : Frame, frame.Corresponds options other counterpart →
      frame.parts.map List.length = counterpart.parts.map List.length := by
    intro frame counterpart hpair
    simp [Frame.parts, hpair.header_length, hpair.payload_length]
  constructor
  · intro sink twin frame counterpart hlevel hpair
    exact (LimitedSink.goesByLength.writeParts_alike hlevel (hlength _ _ hpair)).1
  · intro sink twin frame counterpart hlevel hpair
    exact (LimitedSink.goesByLength.writeParts_alike hlevel (hlength _ _ hpair)).2
  · rintro sink twin ⟨-, hfaults⟩
    change (LimitedSink.finish twin).map _ = (LimitedSink.finish sink).map _
    simp only [LimitedSink.finish, hfaults]

end Sink

namespace Session

variable {σ ι : Type} [Sink σ ι] {sink twin : σ} {options other : WriterOptions} {limit : ℕ}
  {requests : List Request}

/-- Options that differ in layout and tuning alone report every request alike. Over sinks that take
everything their frames end at the same places and differ in the arrangement of payloads and its
code. Over sinks with the same room the same request is the first to fail. -/
theorem layouts_rearrange_payloads (halike : options.Alike other) (hsink : Sink.TakesAll sink)
    (htwin : Sink.TakesAll twin) (hlimit : limit ≤ Block.sizeLimit)
    (hword : ∀ record ∈ written requests, record.content.length < UInt64.size) :
    let session := startWithin sink options limit
    let mirrored := startWithin twin other limit
    mirrored.reports requests = session.reports requests ∧
    (∃ frames counterparts,
      (session.after requests).taken = Sink.taken sink ++ Frame.encodeAll frames ∧
      (mirrored.after requests).taken = Sink.taken twin ++ Frame.encodeAll counterparts ∧
      Frame.decodeAll? (Frame.encodeAll frames) = some frames ∧
      Frame.decodeAll? (Frame.encodeAll counterparts) = some counterparts ∧
      (Frame.encodeAll counterparts).length = (Frame.encodeAll frames).length ∧
      counterparts.map (fun frame => frame.encode.length) =
        frames.map (fun frame => frame.encode.length) ∧
      List.Forall₂ (Frame.Corresponds options other) frames counterparts) ∧
    ∀ limited : LimitedSink,
      (startWithin limited other limit).reports requests =
          (startWithin limited options limit).reports requests ∧
        Report.firstFailure? ((startWithin limited other limit).reports requests) =
          Report.firstFailure? ((startWithin limited options limit).reports requests) := by
  intro session mirrored
  have hstart : Sink.Delivered options other (Sink.taken sink) (Sink.taken twin) sink twin :=
    ⟨hsink, htwin, [], [], (List.append_nil _).symm, (List.append_nil _).symm, .nil⟩
  obtain ⟨hreports, hafter⟩ := (Twins.start halike limit hstart).run
    (Sink.lockstep_delivered options other _ _) halike hlimit hword
  obtain ⟨-, -, frames, counterparts, htaken, htaken', hall⟩ := hafter.writers.sinks
  have hlengths := Frame.lengths_of_corresponds hall
  obtain ⟨hframes, hcounterparts⟩ := Frame.decodeAll?_of_corresponds hall
  refine ⟨hreports, ⟨frames, counterparts, htaken, htaken', hframes, hcounterparts, ?_, hlengths,
    hall⟩, ?_⟩
  · simp only [Frame.encodeAll, List.length_flatMap, hlengths]
  · intro limited
    have hlevel : LimitedSink.Level limited limited := ⟨rfl, rfl⟩
    obtain ⟨hsame, -⟩ := (Twins.start halike limit hlevel).run
      (Sink.lockstep_level options other) halike hlimit hword
    exact ⟨hsame, congrArg Report.firstFailure? hsame⟩

/-- Two short records, an empty block, a record that does not fit a frame, and a close. -/
def mixedRequests : List Request :=
  [.write ⟨"a", [1, 2, 3]⟩, .write ⟨"b", [4, 5, 6, 7, 8]⟩, .flush,
    .write ⟨"c", [1, 2, 3, 4, 5, 6, 7, 8, 9, 10, 11, 12, 13]⟩, .write ⟨"d", []⟩, .close, .flush]

/-- Plain payloads beside planes that three workers make in tiles of two, both over sinks that take
everything and over sinks that fail within the second frame, at the first flush. The payload of the
first frame, three pages of four bytes, stands behind a length and a header of 33 bytes. -/
theorem layouts_rearrange_payloads_secondFrame :
    let options : WriterOptions := { pageSize := 4, blockThreshold := 12, layout := .plain }
    let other : WriterOptions :=
      { pageSize := 4, blockThreshold := 12, transpose := { tileSize := 2, workers := 3 } }
    let session := startWithin ({} : Buffer) options 12
    let mirrored := startWithin ({} : Buffer) other 12
    let limited : LimitedSink := { room? := some 50 }
    mirrored.reports mixedRequests = session.reports mixedRequests ∧
    (mirrored.after mixedRequests).taken.length = (session.after mixedRequests).taken.length ∧
    Bytes.slice 33 12 (session.after mixedRequests).taken = [1, 2, 3, 0, 4, 5, 6, 7, 8, 0, 0, 0] ∧
    Bytes.slice 33 12 (mirrored.after mixedRequests).taken =
      [1, 4, 8, 2, 5, 0, 3, 6, 0, 0, 7, 0] ∧
    Report.firstFailure? ((startWithin limited other 12).reports mixedRequests) = some 2 := by
  intro options other session mirrored limited
  have h := @layouts_rearrange_payloads Buffer Bytes _ {} {} options other 12 mixedRequests
    ⟨by decide, by decide, rfl, rfl, rfl⟩ (Buffer.takesAll {}) (Buffer.takesAll {}) (by decide)
    (by decide)
  obtain ⟨hreports, ⟨frames, counterparts, htaken, htaken', -, -, hlength, -⟩, hlimited⟩ := h
  refine ⟨hreports, ?_, ?_, ?_, ?_⟩
  · rw [htaken, htaken', List.length_append, List.length_append, hlength]
  · decide +kernel
  · decide +kernel
  · rw [(hlimited limited).2]
    decide +kernel

end Session

end PlaneArchive
