import PlaneArchive.Block
import PlaneArchive.Frame
import PlaneArchive.Transpose.Tiles

/-! # The archive writer

Records are collected in a block. Once the padded payload reaches the threshold, on request, and
at the end, the block is detached, arranged as the layout asks, and written as a frame. After a
failed frame the writer refuses all further work, since the sink may end in a torn frame.
-/
namespace PlaneArchive

structure WriterOptions where
  /-- Every record is filled up to a multiple of this many bytes. -/
  pageSize : UInt32 := 8356
  /-- A block is written once its padded payload reaches this many bytes. -/
  blockThreshold : Nat := 512 * 1024 * 1024
  layout : Layout := .transposed
  transpose : TransposeOptions := {}
  compressionLevel : Int32 := 3
  /-- Threads of the compressed stream; none or one means no extra thread. -/
  compressionThreads : UInt32 := 0
  format : ArchiveFormat := {}
  deriving DecidableEq, Repr

def WriterOptions.validate (options : WriterOptions) : Except ArchiveError Unit :=
  if options.pageSize = 0 then .error (.invalidConfig .zeroPageSize)
  else if options.blockThreshold = 0 then .error (.invalidConfig .zeroBlockThreshold)
  else options.transpose.validate

structure Writer (σ : Type) where
  sink : σ
  options : WriterOptions
  block : Block := .empty
  blocksWritten : Nat := 0
  poisoned : Bool := false
  /-- The largest payload that is put into one frame. -/
  payloadLimit : Nat := Block.sizeLimit
  deriving Repr

/-- The payload of a block in the arrangement that the options ask for. -/
def WriterOptions.arrange (options : WriterOptions) (payload : Bytes) :
    Except ArchiveError Bytes :=
  match options.layout with
  | .plain => .ok payload
  | .transposed => Transpose.run options.transpose options.pageSize.toNat payload

def WriterOptions.frame (options : WriterOptions) (block : Block) : Except ArchiveError Frame :=
  match options.arrange block.payload with
  | .error e => .error e
  | .ok payload =>
    if Block.sizeLimit < payload.length then .error (.payloadTooLarge payload.length)
    else
      .ok {
        header := Header.ofBlock options.format options.layout (UInt32.ofNat payload.length)
          options.pageSize block.files
        payload := payload }

namespace Writer

variable {σ ι : Type} [Sink σ ι]

def create (sink : σ) (options : WriterOptions) : Except ArchiveError (Writer σ) :=
  match options.validate with
  | .error e => .error e
  | .ok () => .ok { sink, options }

def pendingFiles (writer : Writer σ) : Nat := writer.block.fileCount

def pendingBytes (writer : Writer σ) : Nat := writer.block.len

/-- Writes a block that has been detached from the writer. -/
def writeBlock (writer : Writer σ) (block : Block) : Except ArchiveError Unit × Writer σ :=
  match writer.options.frame block with
  | .error e => (.error e, writer)
  | .ok frame =>
    match frame.write writer.sink with
    | (.error e, sink) => (.error e, { writer with sink })
    | (.ok _, sink) => (.ok (), { writer with sink, blocksWritten := writer.blocksWritten + 1 })

/-- Writes the current block, even an empty one, and starts a new one. -/
def flush (writer : Writer σ) : Except ArchiveError Unit × Writer σ :=
  if writer.poisoned then (.error .poisoned, writer)
  else
    match writeBlock { writer with block := .empty } writer.block with
    | (.ok (), writer) => (.ok (), writer)
    | (.error e, writer) => (.error e, { writer with poisoned := true })

/-- Appends a record to the current block and writes the block if that filled it. -/
def append (writer : Writer σ) (record : FileRecord) : Except ArchiveError Unit × Writer σ :=
  match writer.block.append record writer.options.pageSize.toUInt64 with
  | .error e => (.error e, writer)
  | .ok block =>
    let writer := { writer with block }
    if writer.options.blockThreshold ≤ block.len then writer.flush else (.ok (), writer)

/-- Takes a record. A record too large for any frame is refused and changes nothing; a block that
could not take it as well is written first. -/
def write (writer : Writer σ) (record : FileRecord) : Except ArchiveError Unit × Writer σ :=
  if writer.poisoned then (.error .poisoned, writer)
  else
    let size := record.content.length
    match Block.paddedSize (UInt64.ofNat size) writer.options.pageSize.toUInt64 with
    | .error e => (.error e, writer)
    | .ok padded =>
      if writer.payloadLimit < padded.toNat then
        (.error (.recordTooLarge record.name size), writer)
      else if !writer.block.isEmpty && writer.payloadLimit < writer.block.len + padded.toNat then
        match writer.flush with
        | (.error e, writer) => (.error e, writer)
        | (.ok (), writer) => writer.append record
      else writer.append record

/-- Writes the last block, even an empty one, and finishes the sink. The writer is handed back so
that what its sink has taken can still be seen. -/
def close (writer : Writer σ) : Except ArchiveError ι × Writer σ :=
  match writer.flush with
  | (.error e, writer) => (.error e, writer)
  | (.ok (), writer) =>
    match Sink.finish writer.sink with
    | .ok inner => (.ok inner, writer)
    | .error cause => (.error (.io [] cause), writer)

end Writer
end PlaneArchive
