import PlaneArchive.Proofs.Writer.Batches
import PlaneArchive.Proofs.Writer.Emission
import PlaneArchive.Proofs.Writer.Poisoning
import PlaneArchive.Sink.Limited

/-! # Why a writer can fail

A writer with valid options fails for four reasons only: a record that is too large, a failure of
its sink, a header whose length does not fit four bytes, and any of the latter two earlier on.
Everything else that is checked on the way to a frame holds for every block that comes about.
-/
namespace PlaneArchive

namespace Sink

variable {σ ι : Type} [Sink σ ι] {sink after : σ} {cause : IoError}

/-- A failure that the sink itself gives, be it after it has been offered more bytes. -/
inductive Fails : σ → IoError → Prop
  | failed {sink after : σ} {bytes : Bytes} {cause : IoError}
      (h : offer sink bytes = (.failed cause, after)) : Fails sink cause
  | refused {sink after : σ} {bytes : Bytes} (hsome : bytes ≠ [])
      (h : offer sink bytes = (.accepted 0, after)) : Fails sink .refused
  | unfinished {sink : σ} {cause : IoError} (h : finish sink = .error cause) : Fails sink cause
  | later {sink after : σ} {bytes : Bytes} {reply : Reply} {cause : IoError}
      (h : offer sink bytes = (reply, after)) (hafter : Fails after cause) : Fails sink cause

theorem Fails.of_follows (h : Follows sink after) (hafter : Fails after cause) :
    Fails sink cause := by
  induction h using Relation.ReflTransGen.head_induction_on with
  | refl => exact hafter
  | head hoffer _ ih =>
    obtain ⟨bytes, rfl⟩ := hoffer
    exact .later rfl ih

theorem Fails.of_writeAll {bytes : Bytes} (h : (writeAll sink bytes).1 = .error cause) :
    Fails sink cause := by
  fun_induction writeAll sink bytes with
  | case1 sink => cases h
  | case2 sink byte more next hoffer =>
    cases h
    exact .refused (List.cons_ne_nil _ _) hoffer
  | case3 sink byte more count next hoffer ih => exact .later hoffer (ih h)
  | case4 sink byte more next hoffer ih => exact .later hoffer (ih h)
  | case5 sink byte more cause next hoffer =>
    cases h
    exact .failed hoffer

theorem Fails.of_writeParts {parts : List Bytes} (h : (writeParts sink parts).1 = .error cause) :
    Fails sink cause := by
  induction parts generalizing sink with
  | nil => cases h
  | cons part parts ih =>
    have hpart := follows_writeAll sink part
    rw [writeParts] at h
    cases hw : writeAll sink part with
    | mk outcome between =>
      rw [hw] at h hpart
      cases outcome with
      | ok _ => exact .of_follows hpart (ih h)
      | error e =>
        cases h
        exact .of_writeAll (congrArg Prod.fst hw)

end Sink

namespace Writer

variable {σ ι : Type} [Sink σ ι] {writer : Writer σ} {blocks : List Block} {e : ArchiveError}

/-- Why some blocks cannot be written although each of them has a frame. -/
inductive Unwritten (writer : Writer σ) (blocks : List Block) : ArchiveError → Prop
  | sink {cause : IoError} (h : Sink.Fails writer.sink cause) :
      Unwritten writer blocks (.io [] cause)
  | longHeader {block : Block} (hmem : block ∈ blocks)
      (h : UInt32.size ≤ (writer.options.frameOf block).header.encode.length) :
      Unwritten writer blocks
        (.unexpected (.headerTooLarge (writer.options.frameOf block).header.encode.length))

def HaveFrames (options : WriterOptions) (blocks : List Block) : Prop :=
  ∀ block ∈ blocks, options.frame block = .ok (options.frameOf block)

theorem unwritten_of_writeBlock {block : Block}
    (hframe : writer.options.frame block = .ok (writer.options.frameOf block))
    (h : (writer.writeBlock block).1 = .error e) : Unwritten writer [block] e := by
  rw [writeBlock, hframe] at h
  dsimp only at h
  rw [Frame.write_eq] at h
  by_cases hlong : UInt32.size ≤ (writer.options.frameOf block).header.encode.length
  · rw [if_pos hlong] at h
    cases h
    exact .longHeader List.mem_cons_self hlong
  · rw [if_neg hlong] at h
    cases hw : Sink.writeParts writer.sink (writer.options.frameOf block).parts with
    | mk outcome after =>
      rw [hw] at h
      cases outcome with
      | ok _ => cases h
      | error cause =>
        cases h
        exact .sink (.of_writeParts (congrArg Prod.fst hw))

theorem unwritten_of_writeBlocks (hframes : HaveFrames writer.options blocks)
    (h : (writer.writeBlocks blocks).1 = .error e) : Unwritten writer blocks e := by
  induction blocks generalizing writer with
  | nil => cases h
  | cons block blocks ih =>
    have hblock := writer.follows_writeBlock block
    obtain ⟨sink, count, hkeep⟩ := writer.writeBlock_keeps block
    rw [writeBlocks] at h
    cases hw : writer.writeBlock block with
    | mk outcome between =>
      rw [hw] at h hblock hkeep
      subst hkeep
      cases outcome with
      | error failure =>
        cases h
        cases unwritten_of_writeBlock (hframes block List.mem_cons_self) (congrArg Prod.fst hw) with
        | sink hfails => exact .sink hfails
        | longHeader hmem hlong =>
          exact .longHeader (List.mem_cons.mpr (.inl (List.mem_singleton.mp hmem))) hlong
      | ok _ =>
        have hrest : Unwritten { writer with sink, blocksWritten := count } blocks e :=
          ih (fun later hmem => hframes later (List.mem_cons_of_mem _ hmem)) h
        cases hrest with
        | sink hfails => exact .sink (.of_follows hblock hfails)
        | longHeader hmem hlong => exact .longHeader (List.mem_cons_of_mem _ hmem) hlong

end Writer

namespace WriterOptions

variable {options : WriterOptions} {limit : ℕ}

/-- The blocks that a request closes are batches of a greedy partition. -/
theorem whole_of_mem_cutOf (hv : options.validate = .ok ()) (hlimit : limit ≤ Block.sizeLimit)
    {held : Partition FileRecord} (hheld : (options.batchRule limit).Keeps held) {request : Request}
    (hword : ∀ record ∈ written [request], record.content.length < UInt64.size) {block : Block}
    (hmem : block ∈
      (options.cutOf limit (Block.ofRecords options.page held.current) request).closed) :
    options.page ∣ block.len ∧ block.len ≤ Block.sizeLimit := by
  obtain ⟨hclosed, _⟩ := advances_cutOf hv hlimit hword held
  have hnext := hheld.step request.record?
  have hbatch := List.mem_append_right (held.closed.map (Block.ofRecords options.page)) hmem
  rw [← hclosed] at hbatch
  obtain ⟨batch, hin, rfl⟩ := List.mem_map.mp hbatch
  refine ⟨Block.dvd_len_ofRecords (page_pos hv) batch, ?_⟩
  rw [len_ofRecords (page_pos hv) limit]
  exact (hnext.closed_le batch hin).trans hlimit

theorem haveFrames_cutOf (hv : options.validate = .ok ()) (hlimit : limit ≤ Block.sizeLimit)
    {held : Partition FileRecord} (hheld : (options.batchRule limit).Keeps held) {request : Request}
    (hword : ∀ record ∈ written [request], record.content.length < UInt64.size) :
    Writer.HaveFrames options
      (options.cutOf limit (Block.ofRecords options.page held.current) request).closed := by
  intro block hmem
  obtain ⟨hpages, hsize⟩ := whole_of_mem_cutOf hv hlimit hheld hword hmem
  exact frame_eq_frameOf hv hpages hsize

theorem roundUp_lt_of_length_lt (hv : options.validate = .ok ()) {len : ℕ} (h : len < 2 ^ 63) :
    roundUp len options.page < UInt64.size := by
  have hlt := roundUp_lt (page_pos hv) len
  have hpage : options.page < 2 ^ 32 := options.pageSize.toNat_lt
  change _ < 2 ^ 64
  omega

theorem fit_eq_error (hv : options.validate = .ok ()) {record : FileRecord} {e : ArchiveError}
    (hlen : record.content.length < 2 ^ 63) (h : options.fit limit record = .error e) :
    limit < roundUp record.content.length options.page ∧
      e = .recordTooLarge record.name record.content.length := by
  obtain ⟨padded, hsize, hnat⟩ := paddedSize_eq hv (roundUp_lt_of_length_lt hv hlen)
  rw [fit, hsize] at h
  dsimp only at h
  split at h
  · next hlarge =>
    cases h
    exact ⟨hnat ▸ hlarge, rfl⟩
  · cases h

theorem refusal?_eq_some (hv : options.validate = .ok ()) {request : Request} {e : ArchiveError}
    (hlen : ∀ record ∈ written [request], record.content.length < 2 ^ 63)
    (h : options.refusal? limit request = some e) :
    ∃ record, request = .write record ∧ limit < roundUp record.content.length options.page ∧
      e = .recordTooLarge record.name record.content.length := by
  cases request with
  | write record =>
    rw [refusal?] at h
    cases hfit : options.fit limit record with
    | error refused =>
      rw [hfit] at h
      cases h
      exact ⟨record, rfl, fit_eq_error hv (hlen record List.mem_cons_self) hfit⟩
    | ok padded =>
      rw [hfit] at h
      cases h
  | flush => cases h
  | close => cases h

theorem append_of_le (hv : options.validate = .ok ()) {record : FileRecord}
    (h : roundUp record.content.length options.page ≤ Block.sizeLimit) (block : Block) :
    block.append record options.pageSize.toUInt64 =
      .ok (block.push (Block.segment record (roundUp record.content.length options.page))) := by
  have hword : roundUp record.content.length options.page < UInt64.size :=
    (Block.lt_of_le_sizeLimit h).trans (by decide)
  obtain ⟨padded, hsize, hnat⟩ := paddedSize_eq hv hword
  rw [Block.append, hsize, ← hnat]
  dsimp only
  rw [if_neg]
  rw [hnat]
  exact Nat.not_lt.mpr h

end WriterOptions

def Answer.error? {ι : Type} : Answer ι → Option ArchiveError
  | .worked (.error e) | .finished (.error e) => some e
  | .worked (.ok _) | .finished (.ok _) | .alreadyClosed => none

namespace Session

variable {σ ι : Type} [Sink σ ι] {session : Session σ} {request : Request} {e : ArchiveError}

/-- The reasons for which a request to an open writer can fail. -/
inductive Fails (session : Session σ) (request : Request) : ArchiveError → Prop
  | poisoned (h : session.writer.poisoned = true) : Fails session request .poisoned
  | tooLarge {record : FileRecord} (hrequest : request = .write record)
      (husable : session.writer.poisoned = false)
      (hlarge : session.writer.payloadLimit <
        roundUp record.content.length session.writer.options.page) :
      Fails session request (.recordTooLarge record.name record.content.length)
  | unwritten {e : ArchiveError} (husable : session.writer.poisoned = false)
      (h : session.writer.Unwritten (session.writer.options.cutOf session.writer.payloadLimit
        session.writer.block request).closed e) : Fails session request e

/-- An answer reports what went wrong with the work, or a sink that could not be finished. -/
theorem error_of_answer {worked : Except ArchiveError Unit × Writer σ}
    (h : (answer request worked : Answer ι).error? = some e) :
    worked.1 = .error e ∨ worked.1 = .ok () ∧
      ∃ cause, e = .io [] cause ∧ Sink.finish worked.2.sink = .error cause := by
  obtain ⟨outcome, after⟩ := worked
  cases outcome with
  | error cause =>
    left
    cases request with
    | write record => exact congrArg Except.error (Option.some.inj h)
    | flush => exact congrArg Except.error (Option.some.inj h)
    | close => exact congrArg Except.error (Option.some.inj h)
  | ok _ =>
    right
    refine ⟨rfl, ?_⟩
    cases request with
    | write record => cases h
    | flush => cases h
    | close =>
      unfold answer at h
      dsimp only at h
      cases hfinish : Sink.finish after.sink with
      | ok inner =>
        rw [hfinish] at h
        cases h
      | error cause =>
        rw [hfinish] at h
        exact ⟨cause, (Option.some.inj h).symm, rfl⟩

theorem fails_of_perform (hv : session.writer.options.validate = .ok ())
    (hopen : session.isOpen = true) (hlimit : session.writer.payloadLimit ≤ Block.sizeLimit)
    (hlen : ∀ record ∈ written [request], record.content.length < 2 ^ 63)
    (hframes : Writer.HaveFrames session.writer.options (session.writer.options.cutOf
      session.writer.payloadLimit session.writer.block request).closed)
    (h : (session.perform request).1.error? = some e) : session.Fails request e := by
  rw [perform_of_open hopen] at h
  cases hp : session.writer.poisoned with
  | true =>
    rw [Writer.work_of_poisoned hp] at h
    rcases error_of_answer h with herror | ⟨hok, _⟩
    · cases herror
      exact .poisoned hp
    · cases hok
  | false =>
    rw [Writer.work_eq hp hlimit] at h
    cases hr : session.writer.options.refusal? session.writer.payloadLimit request with
    | some refused =>
      rw [hr] at h
      rcases error_of_answer h with herror | ⟨hok, _⟩
      · cases herror
        obtain ⟨record, hrequest, hlarge, rfl⟩ := WriterOptions.refusal?_eq_some hv hlen hr
        exact .tooLarge hrequest hp hlarge
      · cases hok
    | none =>
      rw [hr] at h
      have hfollows := session.writer.follows_writeBlocks (session.writer.options.cutOf
        session.writer.payloadLimit session.writer.block request).closed
      refine .unwritten hp ?_
      dsimp only [Writer.carryOut] at h
      cases hw : session.writer.writeBlocks (session.writer.options.cutOf
          session.writer.payloadLimit session.writer.block request).closed with
      | mk outcome after =>
        rw [hw] at h hfollows
        cases outcome with
        | error failed =>
          rcases error_of_answer h with herror | ⟨hok, _⟩
          · cases herror
            exact Writer.unwritten_of_writeBlocks hframes (congrArg Prod.fst hw)
          · cases hok
        | ok _ =>
          rcases error_of_answer h with herror | ⟨_, cause, rfl, hfinish⟩
          · cases herror
          · exact .sink (.of_follows hfollows (.unfinished hfinish))

section Reachable

variable {options : WriterOptions} {limit : ℕ} {requests : List Request}

/-- The pending block of a writer holds a batch that is not full, also after a failure. -/
theorem exists_keeps_block (sink : σ) (hv : options.validate = .ok ())
    (hlimit : limit ≤ Block.sizeLimit) (hopen : Request.close ∉ requests)
    (hword : ∀ record ∈ written requests, record.content.length < UInt64.size) :
    ∃ held, (options.batchRule limit).Keeps held ∧
      ((startWithin sink options limit).after requests).writer.block =
        Block.ofRecords options.page held.current := by
  rw [after_startWithin sink hlimit]
  cases hsettled : (startWithin sink options limit).writer.settled
      (options.pack limit requests) with
  | mk outcome after =>
    cases outcome with
    | ok _ =>
      refine ⟨_, WriterOptions.keeps_batches hv limit requests, ?_⟩
      dsimp only
      rw [(Writer.settled_of_ok hsettled).2.2.2,
        WriterOptions.pack_eq_batches hv hlimit hopen hword]
      rfl
    | error e =>
      have hthreshold : 0 < options.blockThreshold :=
        Nat.pos_of_ne_zero (WriterOptions.validate_eq_ok_iff.mp hv).2.1
      exact ⟨{}, BatchRule.keeps_nothing hthreshold, Writer.block_of_settled_error hsettled⟩

/-- A record that is too large is refused, and the session goes on as if nothing had happened. -/
theorem perform_of_large (hv : session.writer.options.validate = .ok ())
    (hopen : session.isOpen = true) (husable : session.writer.poisoned = false)
    (hlimit : session.writer.payloadLimit ≤ Block.sizeLimit) {record : FileRecord}
    (hlen : record.content.length < 2 ^ 63)
    (hlarge : session.writer.payloadLimit <
      roundUp record.content.length session.writer.options.page) :
    session.perform (.write record) =
      (.worked (.error (.recordTooLarge record.name record.content.length)), session) := by
  have hfit := WriterOptions.fit_of_lt hv (WriterOptions.roundUp_lt_of_length_lt hv hlen) hlarge
  have hwork : session.writer.work (.write record) =
      (.error (.recordTooLarge record.name record.content.length), session.writer) := by
    rw [Writer.work_eq husable hlimit, WriterOptions.refusal?, hfit]
  have hsame : (⟨session.writer, true⟩ : Session σ) = session := by rw [← hopen]
  rw [perform_of_open hopen, hwork]
  exact congrArg (Prod.mk _) hsame

/-- A writer is poisoned exactly when an earlier request could not write a block. -/
theorem poisoned_iff_exists_flushFails (sink : σ) (hlimit : limit ≤ Block.sizeLimit)
    (requests : List Request) :
    ((startWithin sink options limit).after requests).writer.poisoned = true ↔
      ∃ earlier failed later, requests = earlier ++ failed :: later ∧
        ((startWithin sink options limit).after earlier).FlushFails failed := by
  have hs := fresh_startWithin sink options hlimit
  constructor
  · intro hp
    rw [after_startWithin sink hlimit] at hp
    cases hsettled : (startWithin sink options limit).writer.settled
        (options.pack limit requests) with
    | mk outcome after =>
      cases outcome with
      | ok _ =>
        rw [hsettled] at hp
        rw [(Writer.settled_of_ok hsettled).2.2.1] at hp
        cases hp
      | error e => exact exists_flushFails hs (e := e) (congrArg Prod.fst hsettled)
  · rintro ⟨earlier, failed, later, rfl, hfails⟩
    have hpoisoned :
        ((startWithin sink options limit).after (earlier ++ [failed])).writer.poisoned = true := by
      rw [after_append_singleton]
      exact poisoned_of_flushFails (payloadLimit_after hs earlier) hfails
    have hkept := (answer_after_flushFails hs hfails later .flush).2
    change ((startWithin sink options limit).after _).writer = _ at hkept
    rw [hkept]
    exact hpoisoned

/-- A writer with valid options fails for the listed reasons only, and reports to be poisoned
exactly after a block could not be written. The other checks on the way to a frame never fail. -/
theorem failures_of_valid_options (sink : σ) (hv : options.validate = .ok ())
    (hlimit : limit ≤ Block.sizeLimit) (hopen : Request.close ∉ requests)
    (hlen : ∀ record ∈ written requests, record.content.length < 2 ^ 63) :
    let session := (startWithin sink options limit).after requests
    (∀ record : FileRecord, record.content.length < 2 ^ 63 →
      limit < roundUp record.content.length options.page → session.writer.poisoned = false →
        session.perform (.write record) =
          (.worked (.error (.recordTooLarge record.name record.content.length)), session) ∧
        ∀ more, session.run (.write record :: more) =
          (.worked (.error (.recordTooLarge record.name record.content.length)), session) ::
            session.run more) ∧
    (∀ request, (∀ record ∈ written [request], record.content.length < 2 ^ 63) →
      (∀ e, (session.perform request).1.error? = some e → session.Fails request e) ∧
      ((session.perform request).1.error? = some .poisoned ↔
        ∃ earlier failed later, requests = earlier ++ failed :: later ∧
          ((startWithin sink options limit).after earlier).FlushFails failed) ∧
      ∀ block ∈ (options.cutOf limit session.writer.block request).closed,
        ∃ frame, options.frame block = .ok frame ∧
          ∀ capacity, frame.header.encodedLen ≤ capacity →
            frame.header.encodeWithin capacity = .ok frame.header.encode) ∧
    ∀ record : FileRecord, record.content.length < 2 ^ 63 →
      (∃ padded, Block.paddedSize (UInt64.ofNat record.content.length)
        options.pageSize.toUInt64 = .ok padded) ∧
      (roundUp record.content.length options.page ≤ limit →
        ∀ block : Block, ∃ grown,
          block.append record options.pageSize.toUInt64 = .ok grown) := by
  intro session
  have hword : ∀ {record : FileRecord}, record.content.length < 2 ^ 63 →
      record.content.length < UInt64.size := fun h => h.trans (by decide)
  have hsame : session.writer.options = options ∧ session.writer.payloadLimit = limit :=
    writer_keeps sink hlimit requests
  obtain ⟨hoptions, hwithin⟩ := hsame
  have hstill : session.isOpen = true := isOpen_after sink hlimit hopen
  obtain ⟨held, hkeeps, hblock⟩ := exists_keeps_block sink hv hlimit hopen
    fun record hmem => hword (hlen record hmem)
  refine ⟨?_, ?_, ?_⟩
  · intro record hrecord hlarge husable
    have hperform : session.perform (.write record) =
        (.worked (.error (.recordTooLarge record.name record.content.length)), session) :=
      perform_of_large (hoptions ▸ hv) hstill husable (hwithin ▸ hlimit) hrecord
        (by rw [hoptions, hwithin]; exact hlarge)
    refine ⟨hperform, ?_⟩
    intro more
    rw [run, hperform]
  · intro request hrequest
    have hframes : Writer.HaveFrames options
        (options.cutOf limit session.writer.block request).closed := by
      rw [hblock]
      exact WriterOptions.haveFrames_cutOf hv hlimit hkeeps
        fun record hmem => hword (hrequest record hmem)
    have hfails : ∀ e, (session.perform request).1.error? = some e → session.Fails request e := by
      intro e h
      refine fails_of_perform (hoptions ▸ hv) hstill (hwithin ▸ hlimit) hrequest ?_ h
      rw [hoptions, hwithin]
      exact hframes
    refine ⟨hfails, ?_, ?_⟩
    · rw [← poisoned_iff_exists_flushFails sink hlimit]
      constructor
      · intro h
        cases hfails _ h with
        | poisoned hp => exact hp
        | unwritten _ hunwritten => cases hunwritten
      · intro hp
        rw [(perform_of_poisoned hp request).1, hstill]
        cases request <;> rfl
    · intro block hmem
      exact ⟨_, hframes block hmem, fun capacity => Header.encodeWithin_of_le⟩
  · intro record hrecord
    obtain ⟨padded, hsize, _⟩ :=
      WriterOptions.paddedSize_eq hv (WriterOptions.roundUp_lt_of_length_lt hv hrecord)
    refine ⟨⟨padded, hsize⟩, ?_⟩
    intro hfits block
    exact ⟨_, WriterOptions.append_of_le hv (hfits.trans hlimit) block⟩

/-- A sink with room for a part of a frame. -/
def fullSink : LimitedSink := { room? := some 3, faults := { full? := some "no space" } }

theorem failures_of_valid_options_fullSink :
    let start := startWithin fullSink { pageSize := 4, blockThreshold := 8 } 8
    let requests := [.write ⟨"a", [1]⟩, .flush]
    (start.after [.write ⟨"a", [1]⟩]).perform (.write ⟨"b", [1, 2, 3, 4, 5, 6, 7, 8, 9]⟩) =
      (.worked (.error (.recordTooLarge "b" 9)), start.after [.write ⟨"a", [1]⟩]) ∧
    ((start.after requests).perform .flush).1.error? = some .poisoned ∧
    ∃ earlier failed later, requests = earlier ++ failed :: later ∧
      (start.after earlier).FlushFails failed := by
  have husable := @failures_of_valid_options _ _ _ { pageSize := 4, blockThreshold := 8 } 8
    [.write ⟨"a", [1]⟩] fullSink (by decide) (by decide) (by decide) (by decide)
  have hfailed := @failures_of_valid_options _ _ _ { pageSize := 4, blockThreshold := 8 } 8
    [.write ⟨"a", [1]⟩, .flush] fullSink (by decide) (by decide) (by decide) (by decide)
  have hpoisoned : (((startWithin fullSink { pageSize := 4, blockThreshold := 8 } 8).after
      [.write ⟨"a", [1]⟩, .flush]).perform .flush).1.error? = some .poisoned := by
    decide +kernel
  refine ⟨?_, hpoisoned, ?_⟩
  · exact (husable.1 ⟨"b", [1, 2, 3, 4, 5, 6, 7, 8, 9]⟩ (by decide) (by decide)
      (by decide +kernel)).1
  · exact (hfailed.2.1 .flush (by decide)).2.1.mp hpoisoned

end Reachable

end Session

end PlaneArchive
