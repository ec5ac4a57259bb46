import PlaneArchive.Bytes

/-! # Files that are written through a buffer

An open file writes at a position of its own, or, if it was opened for appending, always at the end.
Small runs are held back and written together; what is held back is written at the latest when the
file is closed.
-/
namespace PlaneArchive

/-- A file that is open for writing. -/
structure OpenFile where
  content : Bytes := []
  appends : Bool := false
  position : Nat := 0
  deriving DecidableEq, Repr

/-- Writes a run over what was there. A gap before it is filled with zeros. -/
def OpenFile.write (file : OpenFile) (run : Bytes) : OpenFile :=
  let start := if file.appends then file.content.length else file.position
  let gap := List.replicate (start - file.content.length) 0
  { file with
    content := file.content.take start ++ gap ++ run ++ file.content.drop (start + run.length)
    position := start + run.length }

/-- A file, and the bytes that are held back from it. -/
structure BufferedFile where
  file : OpenFile
  held : Bytes := []
  deriving DecidableEq, Repr

namespace BufferedFile

/-- This many bytes are not held back any more. -/
def capacity : Nat := 8 * 1024 * 1024

def flush (buffered : BufferedFile) : BufferedFile where
  file := buffered.file.write buffered.held

def write (buffered : BufferedFile) (run : Bytes) : BufferedFile :=
  let room := capacity - buffered.held.length
  if run.length < room then { buffered with held := buffered.held ++ run }
  else
    let buffered := if room < run.length then buffered.flush else buffered
    if capacity ≤ run.length then { buffered with file := buffered.file.write run }
    else { buffered with held := buffered.held ++ run }

/-- What the file holds once it is closed. -/
def close (buffered : BufferedFile) : Bytes := buffered.flush.file.content

end BufferedFile
end PlaneArchive
