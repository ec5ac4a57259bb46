import PlaneArchive.Compression
import PlaneArchive.Pipeline

/-! # Adding files to an archive file

All options are checked before the archive file is touched. It is then created, emptied, or kept
to be added to; the inputs are scanned; and their records go to the end of the file. A run that
adds to an archive writes a stream of its own, so runs with different options can share a file.
-/
namespace PlaneArchive

/-- What happens to an archive file that is already there. -/
inductive OpenMode where
  | truncate
  | append
  deriving DecidableEq, Repr

structure AddOptions where
  scan : ScanConfig := {}
  writer : WriterOptions := {}
  mode : OpenMode := .truncate
  /-- Is a line printed for every record? -/
  progress : Bool := false
  deriving DecidableEq, Repr

structure AddOutcome where
  result : Except ArchiveError Summary
  lines : List String
  tree : FileTree

namespace AddOptions

def validate (options : AddOptions) : Except ArchiveError Unit := do
  options.scan.validate
  options.writer.validate

end AddOptions

namespace FileTree

/-- The content of the file at a location; empty if there is none. -/
def contentOf (tree : FileTree) (location : Location) : Bytes :=
  match tree.node? location with
  | some (.file content) => content
  | _ => []

/-- The archive file as it is once it has been opened. -/
def archiveFile (tree : FileTree) (location : Location) (mode : OpenMode) : OpenFile where
  content := tree.contentOf location
  appends := mode = .append

end FileTree

/-- Opens the archive file, and makes a writer for the stream that is added to it. -/
def openArchive (compressor : Compressor) (tree : FileTree) (archive : Path)
    (options : AddOptions) :
    Except ArchiveError (FileTree × Location × Writer (CompressedFile compressor)) := do
  options.writer.validate
  let (tree, location) ←
    match tree.openForWriting (options.mode = .append) archive with
    | .ok opened => Except.ok opened
    | .error cause => .error (.io archive cause)
  let file := tree.archiveFile location options.mode
  let writer ← Writer.create (.start options.writer.compressionLevel file) options.writer
  return (tree, location, writer)

/-- Scans the inputs and writes every record into the archive file. The scan sees the archive file
as it is once it has been opened. A run that fails leaves what it has written so far. -/
def runAdd (compressor : Compressor) (decoder : Gzip.MemberDecoder) (tree : FileTree)
    (archive : Path) (inputs : List Path) (options : AddOptions) : AddOutcome :=
  let opened := do
    options.scan.validate
    openArchive compressor tree archive options
  match opened with
  | .error e => ⟨.error e, [], tree⟩
  | .ok (tree, location, writer) =>
    let consumption := Pipeline.run decoder tree inputs options.scan options.progress writer
    match consumption.result with
    | .error e =>
      ⟨.error e, consumption.lines,
        tree.put location (.file consumption.writer.sink.file.close)⟩
    | .ok (summary, file) =>
      ⟨.ok summary, consumption.lines, tree.put location (.file file.close)⟩

end PlaneArchive
