import PlaneArchive.Text.Utf8

/-! # Causes of failure

Every failure is a cause, and every cause has one wording.
-/
namespace PlaneArchive

/-- A file path as the file system sees it: bytes, not necessarily text. -/
abbrev Path := Bytes

def Path.display (path : Path) : String := Utf8.lossy path

inductive IoError where
  | noSuchFile
  | permissionDenied
  | notADirectory
  | isADirectory
  | nameTooLong
  | tooManyLinks
  /-- A path holds a zero byte and therefore names no file. -/
  | interiorZero
  /-- A sink accepted none of the bytes that it was offered. -/
  | refused
  | other (text : String)
  deriving DecidableEq, Repr

def IoError.message : IoError → String
  | noSuchFile => "No such file or directory (os error 2)"
  | permissionDenied => "Permission denied (os error 13)"
  | notADirectory => "Not a directory (os error 20)"
  | isADirectory => "Is a directory (os error 21)"
  | nameTooLong => "File name too long (os error 36)"
  | tooManyLinks => "Too many levels of symbolic links (os error 40)"
  | interiorZero => "file name contained an unexpected NUL byte"
  | refused => "failed to write whole buffer"
  | other text => text

/-- Why a configuration, or a buffer under a configuration, is unusable. -/
inductive ConfigFault where
  | zeroPageSize
  | zeroBlockThreshold
  | zeroTileSize
  | noTransposeWorkers
  | noScanWorkers
  | incompletePage (length page : Nat)
  | paddingOverflow (length : Nat)
  | other (text : String)
  deriving DecidableEq, Repr

def ConfigFault.message : ConfigFault → String
  | zeroPageSize => "page size must be non-zero"
  | zeroBlockThreshold => "block threshold must be non-zero"
  | zeroTileSize => "transpose tile size must be non-zero"
  | noTransposeWorkers => "transpose needs at least one worker"
  | noScanWorkers => "scanner needs at least one worker in each pool"
  | incompletePage length page =>
    s!"buffer of {length} bytes is not a whole number of {page}-byte pages"
  | paddingOverflow length => s!"record of {length} bytes overflows padding"
  | other text => text

inductive Unexpected where
  | headerTooLarge (length : Nat)
  | other (text : String)
  deriving DecidableEq, Repr

def Unexpected.message : Unexpected → String
  | headerTooLarge length => s!"block header of {length} bytes is too large"
  | other text => text

inductive ArchiveError where
  /-- Reading an input or writing the archive failed; the path is empty when it is unknown. -/
  | io (path : Path) (cause : IoError)
  | invalidConfig (fault : ConfigFault)
  | recordTooLarge (name : String) (size : Nat)
  | payloadTooLarge (size : Nat)
  | headerEncode (required available : Nat)
  /-- An earlier write failed, so the archive may end in a torn frame and must not grow. -/
  | poisoned
  | unexpected (cause : Unexpected)
  deriving DecidableEq, Repr

namespace ArchiveError

def shortBuffer (required available : Nat) : String :=
  "failed to encode Protobuf message; insufficient buffer capacity "
    ++ s!"(required: {required}, remaining: {available})"

def message : ArchiveError → String
  | io path cause => s!"I/O error on path '{path.display}': {cause.message}"
  | invalidConfig fault => s!"Invalid configuration: {fault.message}"
  | recordTooLarge name size => s!"Record '{name}' is too large for a block ({size} bytes)"
  | payloadTooLarge size => s!"Block payload of {size} bytes exceeds the header size field"
  | headerEncode required available =>
    s!"Failed to encode block header: {shortBuffer required available}"
  | poisoned => "Archive writer is unusable after an earlier write failure"
  | unexpected cause => s!"An unexpected error occurred: {cause.message}"

/-- The wording of the failure underneath, where there is one. -/
def source? : ArchiveError → Option String
  | io _ cause => some cause.message
  | headerEncode required available => some (shortBuffer required available)
  | _ => none

end ArchiveError
end PlaneArchive
