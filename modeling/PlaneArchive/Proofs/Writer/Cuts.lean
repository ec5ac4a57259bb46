import Mathlib.Order.Basic
import PlaneArchive.Writer.Session

/-! # Which blocks a request closes

Whether a record is admitted and where blocks end depends on the sizes of records alone. A request
to a writer therefore amounts to writing the blocks that it closes, in order, up to the first that
fails; after a failure nothing is pending and the writer is poisoned.
-/
namespace PlaneArchive

/-- The blocks that a request closes, in order, and the block that takes the next record. -/
structure Cut where
  closed : List Block
  current : Block

namespace WriterOptions

/-- The padded size of a record that fits a frame, or why the record is refused. -/
def fit (options : WriterOptions) (limit : ℕ) (record : FileRecord) : Except ArchiveError ℕ :=
  match Block.paddedSize (UInt64.ofNat record.content.length) options.pageSize.toUInt64 with
  | .error e => .error e
  | .ok padded =>
    if limit < padded.toNat then .error (.recordTooLarge record.name record.content.length)
    else .ok padded.toNat

def cutGrown (options : WriterOptions) (grown : Block) : Cut :=
  if options.blockThreshold ≤ grown.len then ⟨[grown], .empty⟩ else ⟨[], grown⟩

/-- The block is closed early if it cannot take the record as well. -/
def cut (options : WriterOptions) (limit : ℕ) (block : Block) (record : FileRecord)
    (padded : ℕ) : Cut :=
  let segment := Block.segment record padded
  if !block.isEmpty && limit < block.len + padded then
    let rest := options.cutGrown (Block.empty.push segment)
    ⟨block :: rest.closed, rest.current⟩
  else options.cutGrown (block.push segment)

/-- The cut that a request makes; a record that is refused makes none. -/
def cutOf (options : WriterOptions) (limit : ℕ) (block : Block) : Request → Cut
  | .write record =>
    match options.fit limit record with
    | .error _ => ⟨[], block⟩
    | .ok padded => options.cut limit block record padded
  | .flush | .close => ⟨[block], .empty⟩

end WriterOptions

namespace Writer

variable {σ ι : Type} [Sink σ ι] {writer : Writer σ}

def writeBlocks (writer : Writer σ) : List Block → Except ArchiveError Unit × Writer σ
  | [] => (.ok (), writer)
  | block :: blocks =>
    match writer.writeBlock block with
    | (.ok (), writer) => writer.writeBlocks blocks
    | (.error e, writer) => (.error e, writer)

/-- The state after some blocks have been written, or one of them could not be. -/
def settle (current : Block) :
    Except ArchiveError Unit × Writer σ → Except ArchiveError Unit × Writer σ
  | (.ok (), writer) => (.ok (), { writer with block := current })
  | (.error e, writer) => (.error e, { writer with block := .empty, poisoned := true })

def carryOut (writer : Writer σ) (cut : Cut) : Except ArchiveError Unit × Writer σ :=
  settle cut.current (writer.writeBlocks cut.closed)

theorem writeBlock_setBlock (writer : Writer σ) (current block : Block) :
    writeBlock { writer with block := current } block =
      ((writer.writeBlock block).1, { (writer.writeBlock block).2 with block := current }) := by
  unfold writeBlock
  dsimp only
  cases writer.options.frame block with
  | error e => rfl
  | ok frame =>
    dsimp only
    cases frame.write writer.sink with
    | mk outcome sink => cases outcome <;> rfl

/-- Writing a block touches the sink and the count of frames only. -/
theorem writeBlock_keeps (writer : Writer σ) (block : Block) :
    ∃ sink blocksWritten,
      (writer.writeBlock block).2 = { writer with sink, blocksWritten } := by
  unfold writeBlock
  cases writer.options.frame block with
  | error e => exact ⟨_, _, rfl⟩
  | ok frame =>
    dsimp only
    cases frame.write writer.sink with
    | mk outcome sink => cases outcome <;> exact ⟨_, _, rfl⟩

theorem writeBlocks_keeps (writer : Writer σ) (blocks : List Block) :
    ∃ sink blocksWritten,
      (writer.writeBlocks blocks).2 = { writer with sink, blocksWritten } := by
  induction blocks generalizing writer with
  | nil => exact ⟨_, _, rfl⟩
  | cons block blocks ih =>
    obtain ⟨sink, count, hkeep⟩ := writer.writeBlock_keeps block
    unfold writeBlocks
    cases hw : writer.writeBlock block with
    | mk outcome after =>
      rw [hw] at hkeep
      subst hkeep
      cases outcome with
      | error e => exact ⟨_, _, rfl⟩
      | ok _ => exact ih _

theorem settle_writeBlocks_setBlock (writer : Writer σ) (pending current : Block)
    (blocks : List Block) :
    settle current (writeBlocks { writer with block := pending } blocks) =
      settle current (writer.writeBlocks blocks) := by
  induction blocks generalizing writer with
  | nil => rfl
  | cons block blocks ih =>
    unfold writeBlocks
    rw [writeBlock_setBlock]
    cases writer.writeBlock block with
    | mk outcome after =>
      cases outcome with
      | error e => rfl
      | ok _ => exact ih after

/-- Blocks may be written in two goes; after a failure the second go does not happen. -/
theorem writeBlocks_append (writer : Writer σ) (blocks more : List Block) :
    writer.writeBlocks (blocks ++ more) =
      match writer.writeBlocks blocks with
      | (.ok (), writer) => writer.writeBlocks more
      | (.error e, writer) => (.error e, writer) := by
  induction blocks generalizing writer with
  | nil => rfl
  | cons block blocks ih =>
    rw [List.cons_append, writeBlocks, writeBlocks]
    cases writer.writeBlock block with
    | mk outcome after =>
      cases outcome with
      | error e => rfl
      | ok _ => exact ih after

theorem flush_of_poisoned (hp : writer.poisoned = true) :
    writer.flush = (.error .poisoned, writer) := by
  rw [flush, if_pos hp]

theorem write_of_poisoned (hp : writer.poisoned = true) (record : FileRecord) :
    writer.write record = (.error .poisoned, writer) := by
  rw [write, if_pos hp]

theorem flush_eq (hp : writer.poisoned = false) :
    writer.flush = writer.carryOut ⟨[writer.block], .empty⟩ := by
  have hflush : writer.flush =
      match writeBlock { writer with block := .empty } writer.block with
      | (.ok (), writer) => (.ok (), writer)
      | (.error e, writer) => (.error e, { writer with poisoned := true }) := by
    rw [flush, hp]
    rfl
  rw [hflush, writeBlock_setBlock, carryOut, writeBlocks]
  cases writer.writeBlock writer.block with
  | mk outcome after => cases outcome <;> rfl

theorem carryOut_cons (writer : Writer σ) (block : Block) (cut : Cut) :
    writer.carryOut ⟨block :: cut.closed, cut.current⟩ =
      match writer.carryOut ⟨[block], .empty⟩ with
      | (.error e, writer) => (.error e, writer)
      | (.ok (), writer) => writer.carryOut cut := by
  unfold carryOut
  simp only [writeBlocks]
  cases writer.writeBlock block with
  | mk outcome after =>
    cases outcome with
    | error e => rfl
    | ok _ => exact (settle_writeBlocks_setBlock after _ _ _).symm

theorem append_eq (hp : writer.poisoned = false) (hl : writer.payloadLimit ≤ Block.sizeLimit)
    {record : FileRecord} {padded : ℕ}
    (ha : writer.options.fit writer.payloadLimit record = .ok padded) :
    writer.append record =
      writer.carryOut
        (writer.options.cutGrown (writer.block.push (Block.segment record padded))) := by
  unfold WriterOptions.fit at ha
  split at ha
  · cases ha
  · next size hsize =>
    split at ha
    · cases ha
    · next hfit =>
      cases ha
      have happ : writer.block.append record writer.options.pageSize.toUInt64 =
          .ok (writer.block.push (Block.segment record size.toNat)) := by
        rw [Block.append, hsize]
        exact if_neg (by omega)
      rw [append, happ, WriterOptions.cutGrown]
      dsimp only
      split
      · rw [flush_eq (by exact hp)]
        exact settle_writeBlocks_setBlock _ _ _ _
      · rfl

/-- A write is refused, or it carries out the cut that the record makes. -/
theorem write_eq (hp : writer.poisoned = false) (hl : writer.payloadLimit ≤ Block.sizeLimit)
    (record : FileRecord) :
    writer.write record =
      match writer.options.fit writer.payloadLimit record with
      | .error e => (.error e, writer)
      | .ok padded =>
        writer.carryOut (writer.options.cut writer.payloadLimit writer.block record padded) := by
  have hwrite : writer.write record =
      match writer.options.fit writer.payloadLimit record with
      | .error e => (.error e, writer)
      | .ok padded =>
        if !writer.block.isEmpty && writer.payloadLimit < writer.block.len + padded then
          match writer.flush with
          | (.error e, writer) => (.error e, writer)
          | (.ok (), writer) => writer.append record
        else writer.append record := by
    unfold write WriterOptions.fit
    rw [hp, if_neg (by simp)]
    dsimp only
    cases Block.paddedSize (UInt64.ofNat record.content.length)
        writer.options.pageSize.toUInt64 with
    | error e => rfl
    | ok size =>
      dsimp only
      split <;> rfl
  rw [hwrite]
  cases ha : writer.options.fit writer.payloadLimit record with
  | error e => rfl
  | ok padded =>
    dsimp only [WriterOptions.cut]
    split
    · rw [carryOut_cons, flush_eq hp]
      obtain ⟨sink, count, hkeep⟩ := writer.writeBlocks_keeps [writer.block]
      cases hw : writer.writeBlocks [writer.block] with
      | mk outcome after =>
        rw [hw] at hkeep
        subst hkeep
        cases outcome with
        | error e => simp only [carryOut, hw, settle]
        | ok _ =>
          simp only [carryOut, hw, settle]
          exact append_eq (by exact hp) (by exact hl) (by exact ha)
    · exact append_eq hp hl ha

end Writer

end PlaneArchive
