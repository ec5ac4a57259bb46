import PlaneArchive.CommandLine.Parse
import PlaneArchive.Zstandard.Stored

/-! # The program

The outer layer: it reads the file system, prints, and sets the exit status. What is done with
what it reads is decided by the library.
-/
namespace PlaneArchive.Program

def cause : IO.Error → IoError
  | .noFileOrDirectory .. => .noSuchFile
  | .permissionDenied .. => .permissionDenied
  | .inappropriateType _ 20 _ => .notADirectory
  | .inappropriateType _ 21 _ => .isADirectory
  | e => .other (toString e)

def look (path : Path) : IO (Except IoError FileTree.Sight) := do
  match Utf8.decode? path with
  | none => return .error .noSuchFile
  | some name =>
    try
      let real ← IO.FS.realPath name
      if ← real.isDir then
        let entries ← real.readDir
        let seen ← entries.toList.mapM fun entry => do
          let itself ← entry.path.symlinkMetadata
          return (Utf8.encode entry.fileName, itself.type == .dir)
        return .ok (.directory seen)
      else
        let content ← IO.FS.readBinFile name
        return .ok (.file content.data.toList)
    catch e => return .error (cause e)

def scan (inputs : List Path) : IO ScanOutcome := do
  let mut outcome : ScanOutcome := {}
  let mut wave := inputs
  for _ in [0:Scan.waveLimit] do
    let expansions ← wave.mapM fun path => return Expansion.ofSight path (← look path)
    for expansion in expansions do
      outcome := outcome ++ expansion.outcome Gzip.member
    wave := expansions.flatMap Expansion.found
  return outcome

def openFile (mode : OpenMode) (archive : Path) :
    IO (Except ArchiveError IO.FS.Handle) := do
  match Utf8.decode? archive with
  | none => return .error (.io archive .noSuchFile)
  | some name =>
    try
      return .ok (← IO.FS.Handle.mk name (if mode = .append then .append else .write))
    catch e => return .error (.io archive (cause e))

/-- Reports a failure and gives the exit status for it. -/
def fail (e : ArchiveError) : IO UInt32 := do
  IO.eprintln s!"Error: {e.message}"
  return 1

def add (command : CommandLine.AddCommand) : IO UInt32 := do
  let options := command.options 1
  match options.validate with
  | .error e => fail e
  | .ok () =>
    match ← openFile options.mode command.archive with
    | .error e => fail e
    | .ok file =>
      let level := options.writer.compressionLevel
      let sink : CompressedBuffer Zstandard.compressor := { level }
      match Writer.create sink options.writer with
      | .error e => fail e
      | .ok writer =>
        let scanned ← scan command.inputs
        let consumption := Pipeline.ofScan options.progress writer scanned
        consumption.lines.forM fun line => IO.println line
        match consumption.result with
        | .error e => fail e
        | .ok (_, stream) =>
          file.write ⟨stream.toArray⟩
          file.flush
          return 0

def usage : String := "Usage: lc0ar add [OPTIONS] <ARCHIVE> <INPUTS>..."

end PlaneArchive.Program

open PlaneArchive in
def main (arguments : List String) : IO UInt32 := do
  match CommandLine.parse (arguments.map Utf8.encode) with
  | .ok command => Program.add command
  | .error .displayVersion =>
    IO.print CommandLine.versionLine
    return 0
  | .error .displayHelp =>
    IO.println Program.usage
    return 0
  | .error _ =>
    IO.eprintln Program.usage
    return 2
