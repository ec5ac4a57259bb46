import Mathlib.Data.List.Induction
import PlaneArchive.Proofs.Writer.Cuts

/-! # How requests are packed into blocks

Requests close blocks one after another, whatever the sink does. A session that started with a fresh
writer has written these blocks in order, up to the first that failed, and its pending block is
the last of the packing.
-/
namespace PlaneArchive

/-- The blocks closed so far, the block in the making, and whether requests are still taken. -/
structure Packing where
  closed : List Block := []
  current : Block := .empty
  isOpen : Bool := true

def Packing.perform (options : WriterOptions) (limit : ℕ) (packing : Packing)
    (request : Request) : Packing :=
  if packing.isOpen then
    let cut := options.cutOf limit packing.current request
    ⟨packing.closed ++ cut.closed, cut.current, request != .close⟩
  else packing

namespace WriterOptions

def pack (options : WriterOptions) (limit : ℕ) (requests : List Request) : Packing :=
  requests.foldl (Packing.perform options limit) {}

theorem pack_append_singleton (options : WriterOptions) (limit : ℕ) (requests : List Request)
    (request : Request) :
    options.pack limit (requests ++ [request]) =
      (options.pack limit requests).perform options limit request := by
  simp [pack]

theorem isOpen_pack (options : WriterOptions) (limit : ℕ) {requests : List Request}
    (hopen : Request.close ∉ requests) : (options.pack limit requests).isOpen = true := by
  induction requests using List.reverseRecOn with
  | nil => rfl
  | append_singleton requests request ih =>
    rw [List.mem_append, List.mem_singleton, not_or] at hopen
    rw [pack_append_singleton, Packing.perform, if_pos (ih hopen.1)]
    exact bne_iff_ne.mpr (Ne.symm hopen.2)

/-- The closed blocks of a packing are only ever added to. -/
theorem closed_pack_prefix (options : WriterOptions) (limit : ℕ) (requests more : List Request) :
    (options.pack limit requests).closed <+: (options.pack limit (requests ++ more)).closed := by
  induction more using List.reverseRecOn with
  | nil => simp
  | append_singleton more request ih =>
    rw [← List.append_assoc, pack_append_singleton]
    refine ih.trans ?_
    unfold Packing.perform
    split
    · exact List.prefix_append _ _
    · exact List.prefix_rfl

/-- Why a request is turned away, if it is. Only records are. -/
def refusal? (options : WriterOptions) (limit : ℕ) : Request → Option ArchiveError
  | .write record =>
    match options.fit limit record with
    | .error e => some e
    | .ok _ => none
  | .flush | .close => none

theorem cutOf_of_refusal {options : WriterOptions} {limit : ℕ} {request : Request}
    {e : ArchiveError} (h : options.refusal? limit request = some e) (block : Block) :
    options.cutOf limit block request = ⟨[], block⟩ := by
  cases request with
  | write record =>
    rw [refusal?] at h
    rw [cutOf]
    cases ha : options.fit limit record with
    | error _ => rfl
    | ok _ =>
      rw [ha] at h
      cases h
  | flush => cases h
  | close => cases h

end WriterOptions

namespace Writer

variable {σ ι : Type} [Sink σ ι] {writer : Writer σ}

/-- What a request does to the blocks. Closing also finishes the sink after this. -/
def work (writer : Writer σ) : Request → Except ArchiveError Unit × Writer σ
  | .write record => writer.write record
  | .flush | .close => writer.flush

/-- A writer that nothing has been asked of. -/
structure Fresh (writer : Writer σ) : Prop where
  block_eq : writer.block = .empty
  not_poisoned : writer.poisoned = false
  limit_le : writer.payloadLimit ≤ Block.sizeLimit

theorem work_of_poisoned (hp : writer.poisoned = true) (request : Request) :
    writer.work request = (.error .poisoned, writer) := by
  cases request with
  | write record => exact write_of_poisoned hp record
  | flush => exact flush_of_poisoned hp
  | close => exact flush_of_poisoned hp

theorem work_eq (hp : writer.poisoned = false) (hl : writer.payloadLimit ≤ Block.sizeLimit)
    (request : Request) :
    writer.work request =
      match writer.options.refusal? writer.payloadLimit request with
      | some e => (.error e, writer)
      | none =>
        writer.carryOut (writer.options.cutOf writer.payloadLimit writer.block request) := by
  cases request with
  | write record =>
    rw [work, write_eq hp hl, WriterOptions.refusal?, WriterOptions.cutOf]
    cases writer.options.fit writer.payloadLimit record <;> rfl
  | flush => exact flush_eq hp
  | close => exact flush_eq hp

/-- Work that fails for any other reason than a refusal leaves the writer poisoned. -/
theorem poisoned_of_work_error (hl : writer.payloadLimit ≤ Block.sizeLimit) {request : Request}
    {e : ArchiveError} (hr : writer.options.refusal? writer.payloadLimit request = none)
    (he : (writer.work request).1 = .error e) : (writer.work request).2.poisoned = true := by
  cases hp : writer.poisoned with
  | true =>
    rw [work_of_poisoned hp]
    exact hp
  | false =>
    rw [work_eq hp hl, hr] at he ⊢
    dsimp only [carryOut] at he ⊢
    cases hw : writer.writeBlocks
        (writer.options.cutOf writer.payloadLimit writer.block request).closed with
    | mk outcome after =>
      rw [hw] at he
      cases outcome with
      | error _ => rfl
      | ok _ => cases he

def settled (start : Writer σ) (packing : Packing) : Except ArchiveError Unit × Writer σ :=
  settle packing.current (start.writeBlocks packing.closed)

theorem settled_initial {start : Writer σ} (hs : start.Fresh) :
    start.settled {} = (.ok (), start) := by
  change (Except.ok (), { start with block := .empty }) = _
  rw [← hs.block_eq]

theorem settled_keeps (start : Writer σ) (packing : Packing) :
    (start.settled packing).2.options = start.options ∧
      (start.settled packing).2.payloadLimit = start.payloadLimit := by
  obtain ⟨sink, count, hkeep⟩ := start.writeBlocks_keeps packing.closed
  unfold settled
  cases hw : start.writeBlocks packing.closed with
  | mk outcome written =>
    rw [hw] at hkeep
    subst hkeep
    cases outcome <;> exact ⟨rfl, rfl⟩

/-- As long as no block has failed, the writer is the one that wrote the closed blocks, with the
packing's own block pending. -/
theorem written_of_settled {start after : Writer σ} {packing : Packing}
    (h : start.settled packing = (.ok (), after)) :
    ∃ written, start.writeBlocks packing.closed = (.ok (), written) ∧
      after = { written with block := packing.current } := by
  unfold settled at h
  cases hw : start.writeBlocks packing.closed with
  | mk outcome written =>
    rw [hw] at h
    cases outcome with
    | error _ => cases h
    | ok _ =>
      cases h
      exact ⟨written, rfl, rfl⟩

/-- After a block has failed nothing is pending, and the writer is of no further use. -/
theorem failed_of_settled {start after : Writer σ} {packing : Packing} {e : ArchiveError}
    (h : start.settled packing = (.error e, after)) :
    ∃ written, start.writeBlocks packing.closed = (.error e, written) ∧
      after = { written with block := .empty, poisoned := true } := by
  unfold settled at h
  cases hw : start.writeBlocks packing.closed with
  | mk outcome written =>
    rw [hw] at h
    cases outcome with
    | ok _ => cases h
    | error _ =>
      cases h
      exact ⟨written, rfl, rfl⟩

/-- Blocks that were written leave everything but the sink, the count and the pending block. -/
theorem settled_of_ok {start after : Writer σ} {packing : Packing}
    (h : start.settled packing = (.ok (), after)) :
    after.options = start.options ∧ after.payloadLimit = start.payloadLimit ∧
      after.poisoned = start.poisoned ∧ after.block = packing.current := by
  obtain ⟨written, hw, rfl⟩ := written_of_settled h
  obtain ⟨sink, count, hkeep⟩ := start.writeBlocks_keeps packing.closed
  rw [hw] at hkeep
  subst hkeep
  exact ⟨rfl, rfl, rfl, rfl⟩

theorem block_of_settled_error {start after : Writer σ} {packing : Packing} {e : ArchiveError}
    (h : start.settled packing = (.error e, after)) : after.block = .empty := by
  obtain ⟨written, _, rfl⟩ := failed_of_settled h
  rfl

theorem settled_perform_of_error {start after : Writer σ} {packing : Packing} {e : ArchiveError}
    (h : start.settled packing = (.error e, after)) (options : WriterOptions) (limit : ℕ)
    (request : Request) :
    start.settled (packing.perform options limit request) = (.error e, after) ∧
      after.poisoned = true := by
  obtain ⟨written, hw, rfl⟩ := failed_of_settled h
  refine ⟨?_, rfl⟩
  unfold settled Packing.perform
  split
  · rw [writeBlocks_append, hw]
    rfl
  · rw [hw]
    rfl

theorem settled_perform {start written : Writer σ} {packing : Packing}
    (hopen : packing.isOpen = true) (hw : start.writeBlocks packing.closed = (.ok (), written))
    (options : WriterOptions) (limit : ℕ) (request : Request) :
    start.settled (packing.perform options limit request) =
      settle (options.cutOf limit packing.current request).current
        (written.writeBlocks (options.cutOf limit packing.current request).closed) := by
  rw [Packing.perform, if_pos hopen, settled]
  dsimp only
  rw [writeBlocks_append, hw]

section

variable {start after : Writer σ} {packing : Packing} {request : Request}

theorem work_of_refused (hs : start.Fresh) (hopen : packing.isOpen = true)
    (h : start.settled packing = (.ok (), after)) {e : ArchiveError}
    (hr : start.options.refusal? start.payloadLimit request = some e) :
    after.work request = (.error e, after) ∧
      start.settled (packing.perform start.options start.payloadLimit request) =
        (.ok (), after) := by
  obtain ⟨hoptions, hlimit, hpoisoned, _⟩ := settled_of_ok h
  obtain ⟨written, hw, hafter⟩ := written_of_settled h
  constructor
  · rw [work_eq (hpoisoned.trans hs.not_poisoned) (hlimit ▸ hs.limit_le), hoptions, hlimit, hr]
  · rw [settled_perform hopen hw, WriterOptions.cutOf_of_refusal hr, hafter]
    rfl

/-- As long as no block has failed, a request that is not refused carries on with the packing. -/
theorem work_of_settled (hs : start.Fresh) (hopen : packing.isOpen = true)
    (h : start.settled packing = (.ok (), after))
    (hr : start.options.refusal? start.payloadLimit request = none) :
    after.work request =
      start.settled (packing.perform start.options start.payloadLimit request) := by
  obtain ⟨hoptions, hlimit, hpoisoned, hblock⟩ := settled_of_ok h
  obtain ⟨written, hw, hafter⟩ := written_of_settled h
  rw [work_eq (hpoisoned.trans hs.not_poisoned) (hlimit ▸ hs.limit_le), hoptions, hlimit, hblock,
    hr, settled_perform hopen hw]
  dsimp only
  rw [carryOut, hafter, settle_writeBlocks_setBlock]

end

theorem work_settled {start : Writer σ} {packing : Packing} (hs : start.Fresh)
    (hopen : packing.isOpen = true) (request : Request) :
    ((start.settled packing).2.work request).2 =
      (start.settled (packing.perform start.options start.payloadLimit request)).2 := by
  cases h : start.settled packing with
  | mk outcome after =>
    cases outcome with
    | error e =>
      obtain ⟨hnext, hp⟩ :=
        settled_perform_of_error h start.options start.payloadLimit request
      rw [hnext, work_of_poisoned hp]
    | ok _ =>
      cases hr : start.options.refusal? start.payloadLimit request with
      | some e =>
        obtain ⟨hwork, hnext⟩ := work_of_refused hs hopen h hr
        rw [hwork, hnext]
      | none => rw [work_of_settled hs hopen h hr]

end Writer

namespace Session

variable {σ ι : Type} [Sink σ ι] {session : Session σ}

def answer (request : Request) (worked : Except ArchiveError Unit × Writer σ) : Answer ι :=
  match request with
  | .write _ | .flush => .worked worked.1
  | .close =>
    match worked with
    | (.error e, _) => .finished (.error e)
    | (.ok (), writer) =>
      match Sink.finish writer.sink with
      | .ok inner => .finished (.ok inner)
      | .error cause => .finished (.error (.io [] cause))

theorem perform_of_open (h : session.isOpen = true) (request : Request) :
    session.perform request =
      (answer request (session.writer.work request),
        ⟨(session.writer.work request).2, request != .close⟩) := by
  unfold perform
  rw [if_pos h]
  cases request with
  | write record => rfl
  | flush => rfl
  | close =>
    unfold answer Writer.work
    dsimp only
    rw [Writer.close]
    cases session.writer.flush with
    | mk outcome writer =>
      cases outcome with
      | error e => rfl
      | ok _ =>
        dsimp only
        cases Sink.finish writer.sink <;> rfl

theorem perform_of_closed (h : session.isOpen = false) (request : Request) :
    session.perform request = (.alreadyClosed, session) := by
  unfold perform
  rw [h, if_neg Bool.false_ne_true]

def start (sink : σ) (options : WriterOptions) : Session σ := { writer := { sink, options } }

theorem fresh_start (sink : σ) (options : WriterOptions) : (start sink options).writer.Fresh where
  block_eq := rfl
  not_poisoned := rfl
  limit_le := Nat.le_refl _

theorem create_eq_start {options : WriterOptions} (hv : options.validate = .ok ()) (sink : σ) :
    Writer.create sink options = .ok (start sink options).writer := by
  rw [Writer.create, hv]
  rfl

theorem create_eq_ok {sink : σ} {options : WriterOptions} {writer : Writer σ}
    (h : Writer.create sink options = .ok writer) :
    options.validate = .ok () ∧ writer = (start sink options).writer := by
  unfold Writer.create at h
  split at h
  · cases h
  · next hv =>
    cases h
    exact ⟨hv, rfl⟩

theorem after_append_singleton (session : Session σ) (requests : List Request)
    (request : Request) :
    session.after (requests ++ [request]) = ((session.after requests).perform request).2 := by
  rw [after, after, List.foldl_append]
  rfl

/-- After any requests a session has written the blocks of their packing, up to the first that
failed. -/
theorem after_eq {start : Writer σ} (hs : start.Fresh) (requests : List Request) :
    let packing := start.options.pack start.payloadLimit requests
    Session.after { writer := start } requests =
      ⟨(start.settled packing).2, packing.isOpen⟩ := by
  induction requests using List.reverseRecOn with
  | nil =>
    change Session.mk start true = ⟨(start.settled {}).2, true⟩
    rw [Writer.settled_initial hs]
  | append_singleton requests request ih =>
    dsimp only at ih ⊢
    rw [after_append_singleton, ih, WriterOptions.pack_append_singleton]
    generalize start.options.pack start.payloadLimit requests = packing
    cases hopen : packing.isOpen with
    | false =>
      rw [perform_of_closed rfl, Packing.perform, hopen, if_neg Bool.false_ne_true, hopen]
    | true =>
      rw [perform_of_open rfl, Writer.work_settled hs hopen, Packing.perform, if_pos hopen]

theorem after_start (sink : σ) (options : WriterOptions) (requests : List Request) :
    let packing := options.pack Block.sizeLimit requests
    (start sink options).after requests =
      ⟨((start sink options).writer.settled packing).2, packing.isOpen⟩ :=
  after_eq (fresh_start sink options) requests

/-- A session with a new writer that puts at most `limit` bytes of payload into a frame. -/
def startWithin (sink : σ) (options : WriterOptions) (limit : ℕ) : Session σ where
  writer := { sink, options, payloadLimit := limit }

theorem fresh_startWithin (sink : σ) (options : WriterOptions) {limit : ℕ}
    (hlimit : limit ≤ Block.sizeLimit) :
    (startWithin sink options limit).writer.Fresh where
  block_eq := rfl
  not_poisoned := rfl
  limit_le := hlimit

theorem after_startWithin (sink : σ) {options : WriterOptions} {limit : ℕ}
    (hlimit : limit ≤ Block.sizeLimit) (requests : List Request) :
    (startWithin sink options limit).after requests =
      ⟨((startWithin sink options limit).writer.settled (options.pack limit requests)).2,
        (options.pack limit requests).isOpen⟩ :=
  after_eq (fresh_startWithin sink options hlimit) requests

theorem writer_keeps (sink : σ) {options : WriterOptions} {limit : ℕ}
    (hlimit : limit ≤ Block.sizeLimit) (requests : List Request) :
    ((startWithin sink options limit).after requests).writer.options = options ∧
      ((startWithin sink options limit).after requests).writer.payloadLimit = limit := by
  rw [after_startWithin sink hlimit]
  exact Writer.settled_keeps _ _

theorem isOpen_after (sink : σ) {options : WriterOptions} {limit : ℕ}
    (hlimit : limit ≤ Block.sizeLimit) {requests : List Request}
    (hopen : Request.close ∉ requests) :
    ((startWithin sink options limit).after requests).isOpen = true := by
  rw [after_startWithin sink hlimit]
  exact WriterOptions.isOpen_pack options limit hopen

end Session

end PlaneArchive
