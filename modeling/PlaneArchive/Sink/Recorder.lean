import PlaneArchive.Sink.Basic

/-! # Sinks that are watched

A recorder hands every offer on to the sink behind it and keeps what was offered and what was
answered. Whoever writes to it writes as to the sink behind it.
-/
namespace PlaneArchive

namespace Sink

structure Call where
  offered : Bytes
  reply : Reply
  deriving DecidableEq, Repr

namespace Call

/-- The bytes that the sink took in this call. -/
def accepted (call : Call) : Bytes :=
  match call.reply with
  | .accepted count => call.offered.take count
  | .interrupted | .failed _ => []

/-- Why nothing can be written any more after this call, if that is so. -/
def fault? (call : Call) : Option IoError :=
  match call.reply with
  | .accepted 0 => some .refused
  | .accepted (_ + 1) | .interrupted => none
  | .failed cause => some cause

/-- The bytes that the sink took in several calls. -/
def acceptedIn (calls : List Call) : Bytes := calls.flatMap accepted

end Call
end Sink

structure Recorder (σ : Type) where
  sink : σ
  calls : List Sink.Call := []
  deriving DecidableEq, Repr

namespace Recorder

variable {σ ι : Type} [Sink σ ι]

def offer (recorder : Recorder σ) (bytes : Bytes) : Reply × Recorder σ :=
  let (reply, sink) := Sink.offer recorder.sink bytes
  (reply, ⟨sink, recorder.calls ++ [⟨bytes, reply⟩]⟩)

theorem offer_eq {recorder after : Recorder σ} {bytes : Bytes} {reply : Reply}
    (h : recorder.offer bytes = (reply, after)) :
    Sink.offer recorder.sink bytes = (reply, after.sink) ∧
      after.calls = recorder.calls ++ [⟨bytes, reply⟩] := by
  cases h
  exact ⟨rfl, rfl⟩

instance : Sink (Recorder σ) ι where
  taken recorder := Sink.taken recorder.sink
  patience recorder := Sink.patience recorder.sink
  offer := offer
  finish recorder := Sink.finish recorder.sink
  accepted_le h := Sink.accepted_le (offer_eq h).1
  taken_of_accepted h := Sink.taken_of_accepted (offer_eq h).1
  patience_of_accepted h := Sink.patience_of_accepted (offer_eq h).1
  taken_of_interrupted h := Sink.taken_of_interrupted (offer_eq h).1
  patience_of_interrupted h := Sink.patience_of_interrupted (offer_eq h).1
  taken_of_failed h := Sink.taken_of_failed (offer_eq h).1

end Recorder
end PlaneArchive
