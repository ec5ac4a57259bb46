import PlaneArchive.Error

/-! # Sinks

A sink is where the bytes of an archive go. Offered a non-empty run of bytes it may take any part
of it from the front, take nothing, be interrupted, or fail. Writing all of a run means offering
what is left until nothing is left or the sink gives up.
-/
namespace PlaneArchive

inductive Reply where
  /-- The sink has taken this many bytes from the front. -/
  | accepted (count : Nat)
  /-- Nothing was taken; the same bytes may be offered again. -/
  | interrupted
  | failed (cause : IoError)
  deriving DecidableEq, Repr

/-- A destination of bytes. `ι` is what remains of it once it is finished. The laws say that a
sink takes only from the front of what it is offered, and that it is interrupted at most
`patience` more times. -/
class Sink (σ : Type) (ι : outParam Type) where
  taken : σ → Bytes
  patience : σ → Nat
  offer : σ → Bytes → Reply × σ
  /-- Flushes what the sink holds back and hands over what is inside. -/
  finish : σ → Except IoError ι
  accepted_le {s s' : σ} {bytes : Bytes} {count : Nat} :
    offer s bytes = (.accepted count, s') → count ≤ bytes.length
  taken_of_accepted {s s' : σ} {bytes : Bytes} {count : Nat} :
    offer s bytes = (.accepted count, s') → taken s' = taken s ++ bytes.take count
  patience_of_accepted {s s' : σ} {bytes : Bytes} {count : Nat} :
    offer s bytes = (.accepted count, s') → patience s' ≤ patience s
  taken_of_interrupted {s s' : σ} {bytes : Bytes} :
    offer s bytes = (.interrupted, s') → taken s' = taken s
  patience_of_interrupted {s s' : σ} {bytes : Bytes} :
    offer s bytes = (.interrupted, s') → patience s' < patience s
  taken_of_failed {s s' : σ} {bytes : Bytes} {cause : IoError} :
    offer s bytes = (.failed cause, s') → taken s' = taken s

namespace Sink

variable {σ ι : Type} [Sink σ ι]

/-- Offers `bytes` until all of them are taken, the sink takes none, or it fails. Nothing is
offered when there is nothing to write. -/
def writeAll (sink : σ) (bytes : Bytes) : Except IoError Unit × σ :=
  match bytes with
  | [] => (.ok (), sink)
  | byte :: more =>
    match _h : offer sink (byte :: more) with
    | (.accepted 0, sink) => (.error .refused, sink)
    | (.accepted (count + 1), sink) => writeAll sink (more.drop count)
    | (.interrupted, sink) => writeAll sink (byte :: more)
    | (.failed cause, sink) => (.error cause, sink)
termination_by bytes.length + patience sink
decreasing_by
  · have := patience_of_accepted ‹_›
    simp only [List.length_drop, List.length_cons]
    omega
  · have := patience_of_interrupted ‹_›
    omega

/-- Writes several runs one after another and stops at the first that fails. -/
def writeParts (sink : σ) : List Bytes → Except IoError Unit × σ
  | [] => (.ok (), sink)
  | part :: parts =>
    match writeAll sink part with
    | (.ok (), sink) => writeParts sink parts
    | (.error cause, sink) => (.error cause, sink)

end Sink
end PlaneArchive
