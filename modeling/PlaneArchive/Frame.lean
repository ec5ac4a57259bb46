import PlaneArchive.Header.Codec
import PlaneArchive.Sink.Basic

/-! # Frames

A block is written as a frame: the length of the encoded header as four bytes, most significant
first, then the header, then the payload. The payload carries no length of its own; its size is
in the header. Frames follow each other without separator, and nothing in one refers to another.
-/
namespace PlaneArchive

structure Frame where
  header : Header
  payload : Bytes
  deriving DecidableEq, Repr

namespace Frame

def parts (frame : Frame) : List Bytes :=
  let encoded := frame.header.encode
  [Bytes.bigEndian 4 encoded.length, encoded, frame.payload]

def encode (frame : Frame) : Bytes := frame.parts.flatten

def encodeAll (frames : List Frame) : Bytes := frames.flatMap encode

/-- Writes a frame and tells how many bytes that took. The header is encoded into a buffer that was
made for its length. One whose length needs more than four bytes is refused before anything is
written. Nothing is taken back if the sink fails half-way. -/
def write {σ ι : Type} [Sink σ ι] (sink : σ) (frame : Frame) : Except ArchiveError Nat × σ :=
  match frame.header.encodeWithin frame.header.encodedLen with
  | .error e => (.error e, sink)
  | .ok encoded =>
    if UInt32.size ≤ encoded.length then
      (.error (.unexpected (.headerTooLarge encoded.length)), sink)
    else
      match Sink.writeParts sink [Bytes.bigEndian 4 encoded.length, encoded, frame.payload] with
      | (.ok (), sink) => (.ok (4 + encoded.length + frame.payload.length), sink)
      | (.error cause, sink) => (.error (.io [] cause), sink)

/-- The buffer is never too small. -/
theorem write_eq {σ ι : Type} [Sink σ ι] (sink : σ) (frame : Frame) :
    frame.write sink =
      if UInt32.size ≤ frame.header.encode.length then
        (.error (.unexpected (.headerTooLarge frame.header.encode.length)), sink)
      else
        match Sink.writeParts sink frame.parts with
        | (.ok (), sink) => (.ok (4 + frame.header.encode.length + frame.payload.length), sink)
        | (.error cause, sink) => (.error (.io [] cause), sink) := by
  rw [write, Header.encodeWithin_of_le (Nat.le_refl _)]
  rfl

/-- Why the front of a byte string is not a frame. -/
inductive ReadError where
  | incomplete
  | badHeader (cause : Wire.WireError)
  deriving DecidableEq, Repr

def read (bytes : Bytes) : Except ReadError (Frame × Bytes) :=
  match Bytes.split? 4 bytes with
  | none => .error .incomplete
  | some (length, rest) =>
    match Bytes.split? (Bytes.ofBigEndian length) rest with
    | none => .error .incomplete
    | some (encoded, rest) =>
      match Header.decode encoded with
      | .error cause => .error (.badHeader cause)
      | .ok header =>
        match Bytes.split? header.payloadSize.toNat rest with
        | none => .error .incomplete
        | some (payload, rest) => .ok (⟨header, payload⟩, rest)

theorem length_of_read {frame : Frame} {bytes rest : Bytes} (h : read bytes = .ok (frame, rest)) :
    rest.length < bytes.length := by
  simp only [read] at h
  grind [→ Bytes.length_rest_of_split?]

/-- The frames at the front of a byte string, and why reading stopped before its end, if it did. -/
def readAll (bytes : Bytes) : List Frame × Option ReadError :=
  match bytes with
  | [] => ([], none)
  | byte :: more =>
    match _h : read (byte :: more) with
    | .error e => ([], some e)
    | .ok (frame, rest) =>
      let (frames, stopped) := readAll rest
      (frame :: frames, stopped)
termination_by bytes.length
decreasing_by exact length_of_read ‹_›

def decodeAll? (bytes : Bytes) : Option (List Frame) :=
  match readAll bytes with
  | (frames, none) => some frames
  | (_, some _) => none

end Frame
end PlaneArchive
