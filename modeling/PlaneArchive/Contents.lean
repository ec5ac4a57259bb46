import PlaneArchive.Frame
import PlaneArchive.Padding
import PlaneArchive.Record
import PlaneArchive.Transpose.Basic

/-! # Reading records back

A frame describes itself: its header gives the layout, the page size, and the name and size of
every record. The records are therefore recovered frame by frame, without anything from outside.
-/
namespace PlaneArchive

structure Recovered where
  records : List FileRecord
  /-- The bytes between the records, which only fill up pages. -/
  padding : Bytes
  leftover : Bytes
  deriving DecidableEq, Repr

namespace Frame

def cut (page : Nat) : List FileMetadata → Bytes → Recovered
  | [], payload => ⟨[], [], payload⟩
  | entry :: entries, payload =>
    let size := entry.size.toNat
    let area := payload.take (roundUp size page)
    let rest := cut page entries (payload.drop (roundUp size page))
    { records := ⟨entry.name, area.take size⟩ :: rest.records
      padding := area.drop size ++ rest.padding
      leftover := rest.leftover }

/-- The payload with its records back to back. Planes are undone by transposing with the number
of records as the page size. -/
def plainPayload (frame : Frame) : Bytes :=
  match frame.header.layout with
  | .plain => frame.payload
  | .transposed =>
    Transpose.planes (frame.payload.length / frame.header.pageSize.toNat) frame.payload

def recover (frame : Frame) : Recovered :=
  cut frame.header.pageSize.toNat frame.header.files frame.plainPayload

end Frame

/-- The records of a whole archive stream, if it consists of frames. -/
def recordsOf? (bytes : Bytes) : Option (List FileRecord) :=
  (Frame.decodeAll? bytes).map fun frames => frames.flatMap fun frame => frame.recover.records

end PlaneArchive
