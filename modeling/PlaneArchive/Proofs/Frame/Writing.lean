import PlaneArchive.Proofs.Frame.Reading
import PlaneArchive.Proofs.Sink.Calls
import PlaneArchive.Sink.Scripted

/-! # Frames written to any sink

Sinks take what they like of what they are offered. A frame arrives as a whole nevertheless, unless
the sink gives up on the way; then the front of the frame has been taken, and the error is that of
the last call.
-/
namespace PlaneArchive

namespace Frame

open Sink (Call)

/-- A sink that got these calls has been given a frame, and writing it came to this result. -/
structure Delivered (frame : Frame) (calls : List Call) (result : Except ArchiveError ℕ) :
    Prop where
  front : Call.acceptedIn calls <+: frame.encode
  /-- Each call offers the front of what the calls before it have not taken of the frame, up to the
  end of its length field, of its header or of its payload. -/
  resumes : ∀ before call later, calls = before ++ call :: later →
    ∃ rest, frame.encode = Call.acceptedIn before ++ rest ∧ call.offered ≠ [] ∧
      call.offered <+: rest ∧ ∃ part ∈ frame.parts, call.offered <:+ part
  ok_of_whole : Call.acceptedIn calls = frame.encode → result = .ok frame.encode.length
  error_of_torn : Call.acceptedIn calls ≠ frame.encode →
    ∃ before last cause, calls = before ++ [last] ∧ (∀ call ∈ before, call.fault? = none) ∧
      last.fault? = some cause ∧ result = .error (.io [] cause)

variable {σ ι : Type} [Sink σ ι] {sink after : σ} {frame : Frame} {outcome : Except IoError Unit}

theorem write_of_headerTooLarge (h : UInt32.size ≤ frame.header.encode.length) (sink : σ) :
    frame.write sink =
      (.error (.unexpected (.headerTooLarge frame.header.encode.length)), sink) := by
  rw [write_eq, if_pos h]

/-- The result of writing a frame whose parts have been written with this outcome. -/
def resultOf (frame : Frame) : Except IoError Unit → Except ArchiveError ℕ
  | .ok () => .ok frame.encode.length
  | .error cause => .error (.io [] cause)

theorem write_of_writeParts (h : frame.header.encode.length < UInt32.size)
    (hparts : Sink.writeParts sink frame.parts = (outcome, after)) :
    frame.write sink = (frame.resultOf outcome, after) := by
  rw [write_eq, if_neg (Nat.not_le.mpr h), hparts]
  cases outcome with
  | ok _ => rw [resultOf, length_encode]
  | error cause => rfl

theorem delivered_of_makes {calls : List Call} (h : Sink.Makes frame.parts calls outcome) :
    frame.Delivered calls (frame.resultOf outcome) where
  front := h.accepted_prefix
  resumes := by
    intro before call later hcalls
    obtain ⟨rest, hrest, hfront⟩ := h.resumes hcalls
    obtain ⟨hne, hpart⟩ := h.offers_part call (by rw [hcalls]; simp)
    exact ⟨rest, hrest, hne, hfront, hpart⟩
  ok_of_whole := by
    intro hwhole
    obtain rfl := h.ok_iff.mpr hwhole
    rfl
  error_of_torn := by
    intro htorn
    rcases h.error_of_last with ⟨hok, _⟩ | ⟨before, last, cause, hcalls, hnone, hlast, rfl⟩
    · exact absurd (h.ok_iff.mp hok) htorn
    · exact ⟨before, last, cause, hcalls, hnone, hlast, rfl⟩

/-- Whatever frame is written and however the sink answers, the calls that the sink gets deliver the
frame from its first byte on, and what they accept is what the sink holds more. A header whose
length does not fit causes no call, and neither does an empty payload. -/
theorem write_to_any_sink (sink : σ) (frame : Frame) :
    ∃ result after calls,
      frame.write sink = (result, after) ∧
      frame.write (⟨sink, []⟩ : Recorder σ) = (result, ⟨after, calls⟩) ∧
      Sink.taken after = Sink.taken sink ++ Call.acceptedIn calls ∧
      (UInt32.size ≤ frame.header.encode.length →
        result = .error (.unexpected (.headerTooLarge frame.header.encode.length)) ∧ calls = [] ∧
          after = sink) ∧
      (frame.header.encode.length < UInt32.size → frame.Delivered calls result) ∧
      (frame.header.encode.length < UInt32.size → frame.payload = [] →
        (Sink.writeParts (⟨sink, []⟩ : Recorder σ)
          [Bytes.bigEndian 4 frame.header.encode.length, frame.header.encode]).2.calls =
            calls) := by
  rcases Nat.lt_or_ge frame.header.encode.length UInt32.size with hfits | hlarge
  · cases hw : Sink.writeParts (⟨sink, []⟩ : Recorder σ) frame.parts with
    | mk outcome recorder =>
      obtain ⟨after, recorded⟩ := recorder
      obtain ⟨hinner, calls, hrecords, hmakes⟩ := Sink.writeParts_recorder hw
      obtain rfl : recorded = calls := hrecords.calls_eq
      refine ⟨frame.resultOf outcome, after, recorded, write_of_writeParts hfits hinner,
        write_of_writeParts hfits hw, hrecords.taken_eq, ?_, ?_, ?_⟩
      · intro hlarge
        exact absurd hfits (Nat.not_lt.mpr hlarge)
      · intro _
        exact delivered_of_makes hmakes
      · intro _ hpayload
        have hparts : frame.parts =
            [Bytes.bigEndian 4 frame.header.encode.length, frame.header.encode] ++ [[]] := by
          rw [parts, hpayload]
          rfl
        rw [hparts, Sink.writeParts_append_nil] at hw
        rw [hw]
  · refine ⟨_, sink, [], write_of_headerTooLarge hlarge sink, write_of_headerTooLarge hlarge _,
      (List.append_nil _).symm, ?_, ?_, ?_⟩
    · intro _
      exact ⟨rfl, rfl, rfl⟩
    · intro hfits
      exact absurd hfits (Nat.not_lt.mpr hlarge)
    · intro hfits
      exact absurd hfits (Nat.not_lt.mpr hlarge)

/-- Short writes and interruptions in the length field, in the header and in the payload, and then
a disk that is full: all but the last byte have been taken. -/
theorem write_to_filling_disk :
    let frame : Frame := ⟨{ version? := some 1 }, [9, 8, 7]⟩
    let sink : ScriptedSink := { replies := [.accepted 3, .interrupted, .accepted 9, .accepted 1,
      .interrupted, .accepted 1, .accepted 2, .failed (.other "disk full")] }
    let failure : Except ArchiveError ℕ := .error (.io [] (.other "disk full"))
    frame.encode = [0, 0, 0, 2, 16, 1, 9, 8, 7] ∧
      frame.write sink = (failure, ⟨[], [0, 0, 0, 2, 16, 1, 9, 8]⟩) ∧
      ∃ calls, Call.acceptedIn calls = [0, 0, 0, 2, 16, 1, 9, 8] ∧
        frame.Delivered calls failure := by
  intro frame sink failure
  have hencode : frame.encode = [0, 0, 0, 2, 16, 1, 9, 8, 7] := by cbv
  have hwrite : frame.write sink = (failure, ⟨[], [0, 0, 0, 2, 16, 1, 9, 8]⟩) := by cbv
  have hheader : frame.header.encode.length < UInt32.size := by
    have hlength : frame.header.encode.length = 2 := by cbv
    rw [hlength]
    decide
  obtain ⟨result, after, calls, hresult, _, htaken, _, hdelivered, _⟩ :=
    write_to_any_sink sink frame
  rw [hwrite, Prod.mk.injEq] at hresult
  obtain ⟨rfl, rfl⟩ := hresult
  exact ⟨hencode, hwrite, calls, htaken.symm, hdelivered hheader⟩

end Frame

end PlaneArchive
