import PlaneArchive.Error

/-! # Block headers

Every block is described by a header: the identity of the format, the size and layout of the
payload, its page size, and one entry per record in payload order. A header that was read may
lack any of these; each then has a default.
-/
namespace PlaneArchive

inductive Layout where
  | plain
  /-- Byte planes, with the page size as the record size. -/
  | transposed
  deriving DecidableEq, Repr

namespace Layout

def code : Layout → Int32
  | plain => 1
  | transposed => 2

def ofCode? (code : Int32) : Option Layout :=
  if code = 1 then some plain else if code = 2 then some transposed else none

theorem ofCode?_code (layout : Layout) : ofCode? layout.code = some layout := by
  cases layout <;> decide

end Layout

/-- The identity of the format, stamped into every header. -/
structure ArchiveFormat where
  magic : String := "lc0ar"
  version : UInt32 := 1
  deriving DecidableEq, Repr

/-- Name and unpadded size of one record of a block. -/
structure FileMetadata where
  name? : Option String := none
  size? : Option UInt32 := none
  deriving DecidableEq, Repr

namespace FileMetadata

def ofRecord (name : String) (size : UInt32) : FileMetadata := ⟨some name, some size⟩

def name (entry : FileMetadata) : String := entry.name?.getD ""

def size (entry : FileMetadata) : UInt32 := entry.size?.getD 0

end FileMetadata

structure Header where
  magic? : Option String := none
  version? : Option UInt32 := none
  payloadSize? : Option UInt32 := none
  layoutCode? : Option Int32 := none
  files : List FileMetadata := []
  pageSize? : Option UInt32 := none
  deriving DecidableEq, Repr

namespace Header

def ofBlock (format : ArchiveFormat) (layout : Layout) (payloadSize pageSize : UInt32)
    (files : List FileMetadata) : Header where
  magic? := some format.magic
  version? := some format.version
  payloadSize? := some payloadSize
  layoutCode? := some layout.code
  files := files
  pageSize? := some pageSize

def magic (header : Header) : String := header.magic?.getD ""

def version (header : Header) : UInt32 := header.version?.getD 0

def payloadSize (header : Header) : UInt32 := header.payloadSize?.getD 0

/-- The layout of the payload; one that is absent or unknown reads as plain. -/
def layout (header : Header) : Layout := (header.layoutCode?.bind Layout.ofCode?).getD .plain

def pageSize (header : Header) : UInt32 := header.pageSize?.getD 0

end Header
end PlaneArchive
