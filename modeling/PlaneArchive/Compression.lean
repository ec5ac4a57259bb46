import PlaneArchive.Sink.Buffer
import PlaneArchive.Sink.File

/-! # Compressed streams

The library relies on one law of a compressed file format: in whatever runs its content was handed
in, a finished stream can be followed by more, and its content is then read before that of the
others.
-/
namespace PlaneArchive

/-- How content is turned into a stream. -/
structure Encoder where
  State : Type
  start : (level : Int32) → State
  /-- Takes in a run of the content, and gives out as much of the stream as is ready. -/
  feed : State → (run : Bytes) → Bytes × State
  /-- The rest of the stream. -/
  finish : State → Bytes

/-- What is still given out when this is all that is taken in. -/
def Encoder.encode (encoder : Encoder) (state : encoder.State) : (runs : List Bytes) → Bytes
  | [] => encoder.finish state
  | run :: runs =>
    let (ready, state) := encoder.feed state run
    ready ++ encoder.encode state runs

structure Compressor extends Encoder where
  /-- The contents of the finished streams that a file consists of. -/
  streams? : Bytes → Option (List Bytes)
  streams?_nil : streams? [] = some []
  streams?_append {level : Int32} {runs : List Bytes} {rest : Bytes} :
    streams? (toEncoder.encode (toEncoder.start level) runs ++ rest) =
      (streams? rest).map (runs.flatten :: ·)

namespace Compressor

/-- A finished stream whose content was handed in in these runs. -/
def compress (compressor : Compressor) (level : Int32) (runs : List Bytes) : Bytes :=
  compressor.encode (compressor.start level) runs

/-- The content of a file, which consists of at least one stream. -/
def decompress? (compressor : Compressor) (file : Bytes) : Option Bytes :=
  match compressor.streams? file with
  | none | some [] => none
  | some (content :: others) => some (content ++ others.flatten)

end Compressor

/-- A buffer that is compressed once it is finished. -/
structure CompressedBuffer (compressor : Compressor) where
  level : Int32
  buffer : Buffer := {}

namespace CompressedBuffer

instance (compressor : Compressor) : Sink (CompressedBuffer compressor) Bytes where
  taken sink := sink.buffer.bytes
  patience _ := 0
  offer sink run := (.accepted run.length, { sink with buffer := sink.buffer.push run })
  finish sink := .ok (compressor.compress sink.level sink.buffer.runs.reverse)
  accepted_le h := by
    injection h with h _
    injection h with h
    exact Nat.le_of_eq h.symm
  taken_of_accepted h := by
    injection h with h hs
    injection h with h
    subst h hs
    simp
  patience_of_accepted _ := Nat.le_refl _
  taken_of_interrupted h := by
    injection h with h _
    cases h
  patience_of_interrupted h := by
    injection h with h _
    cases h
  taken_of_failed h := by
    injection h with h _
    cases h

end CompressedBuffer

/-- A file to which a stream is written while its content comes in. -/
structure CompressedFile (compressor : Compressor) where
  encoder : compressor.State
  file : BufferedFile
  buffer : Buffer := {}

namespace CompressedFile

variable {compressor : Compressor}

/-- A new stream at a level. -/
def start (level : Int32) (file : OpenFile) : CompressedFile compressor where
  encoder := compressor.start level
  file := { file }

def offer (sink : CompressedFile compressor) (run : Bytes) :
    Reply × CompressedFile compressor :=
  let (ready, encoder) := compressor.feed sink.encoder run
  (.accepted run.length,
    { encoder, file := sink.file.write ready, buffer := sink.buffer.push run })

/-- Ends the stream, and holds nothing back any more. -/
def finish (sink : CompressedFile compressor) : BufferedFile :=
  (sink.file.write (compressor.finish sink.encoder)).flush

instance (compressor : Compressor) : Sink (CompressedFile compressor) BufferedFile where
  taken sink := sink.buffer.bytes
  patience _ := 0
  offer := offer
  finish sink := .ok sink.finish
  accepted_le h := by
    injection h with h _
    injection h with h
    exact Nat.le_of_eq h.symm
  taken_of_accepted h := by
    injection h with h hs
    injection h with h
    subst h hs
    simp
  patience_of_accepted _ := Nat.le_refl _
  taken_of_interrupted h := by
    injection h with h _
    cases h
  patience_of_interrupted h := by
    injection h with h _
    cases h
  taken_of_failed h := by
    injection h with h _
    cases h

end CompressedFile
end PlaneArchive
