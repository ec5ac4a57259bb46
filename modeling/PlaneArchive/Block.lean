import PlaneArchive.Header.Basic
import PlaneArchive.Padding
import PlaneArchive.Record

/-! # Blocks in the making

A block collects records, each filled up with zero bytes to a whole number of pages, and one
header entry per record with its unpadded size.
-/
namespace PlaneArchive

/-- One record of a block: its header entry and its padded bytes. -/
structure Segment where
  entry : FileMetadata
  bytes : Bytes
  deriving DecidableEq, Repr

/-- The records appended so far, newest first, and the length of all their padded bytes. -/
structure Block where
  segments : List Segment := []
  len : Nat := 0
  len_eq : len = (segments.flatMap Segment.bytes).length := by rfl
  deriving Repr

namespace Block

instance : DecidableEq Block := fun a b =>
  if h : a.segments = b.segments then
    .isTrue (by
      obtain ⟨s, n, hn⟩ := a
      obtain ⟨t, m, hm⟩ := b
      obtain rfl : s = t := h
      obtain rfl : n = m := hn.trans hm.symm
      rfl)
  else .isFalse (fun e => h (congrArg segments e))

def empty : Block := {}

/-- The largest size that fits a size field. -/
def sizeLimit : Nat := UInt32.size - 1

def payload (block : Block) : Bytes :=
  (block.segments.reverse.map fun segment => segment.bytes).flatten

def files (block : Block) : List FileMetadata :=
  block.segments.reverse.map fun segment => segment.entry

def fileCount (block : Block) : Nat := block.segments.length

/-- Has nothing been appended? A block of empty records is not empty. -/
def isEmpty (block : Block) : Bool := block.segments.isEmpty

def last? (block : Block) : Option FileMetadata :=
  block.segments.head?.map fun segment => segment.entry

def paddedSize (len page : UInt64) : Except ArchiveError UInt64 :=
  if page = 0 then .error (.invalidConfig .zeroPageSize)
  else
    match paddedLen len page with
    | some padded => .ok padded
    | none => .error (.invalidConfig (.paddingOverflow len.toNat))

/-- The record as a segment of `padded` bytes. -/
def segment (record : FileRecord) (padded : Nat) : Segment :=
  let size := record.content.length
  { entry := .ofRecord record.name (UInt32.ofNat size)
    bytes := record.content ++ Bytes.zeros (padded - size) }

def push (block : Block) (segment : Segment) : Block where
  segments := segment :: block.segments
  len := segment.bytes.length + block.len
  len_eq := by simp [block.len_eq]

def append (block : Block) (record : FileRecord) (page : UInt64) : Except ArchiveError Block :=
  match paddedSize (UInt64.ofNat record.content.length) page with
  | .error e => .error e
  | .ok padded =>
    if sizeLimit < padded.toNat then
      .error (.recordTooLarge record.name record.content.length)
    else .ok (block.push (segment record padded.toNat))

theorem length_payload (block : Block) : block.payload.length = block.len := by
  rw [payload, block.len_eq, List.map_reverse, List.flatMap_def]
  simp [List.length_flatten, List.sum_reverse]

end Block
end PlaneArchive
