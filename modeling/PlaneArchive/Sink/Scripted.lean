import PlaneArchive.Sink.Basic

/-! # Sinks that follow a script

Whatever a sink does in the course of some calls, short writes, interruptions and failures in any
order, a sink does that has a list of replies, one for each call.
-/
namespace PlaneArchive

/-- A sink that answers by these replies in turn, and takes everything once there are none left. It
never takes more than it is offered. -/
structure ScriptedSink where
  replies : List Reply
  bytes : Bytes := []
  deriving DecidableEq, Repr

namespace ScriptedSink

def take (sink : ScriptedSink) (replies : List Reply) (run : Bytes) (count : Nat) :
    Reply × ScriptedSink :=
  (.accepted (min count run.length), ⟨replies, sink.bytes ++ run.take count⟩)

def offer (sink : ScriptedSink) (run : Bytes) : Reply × ScriptedSink :=
  match sink.replies with
  | [] => sink.take [] run run.length
  | .accepted count :: replies => sink.take replies run count
  | reply :: replies => (reply, { sink with replies })

/-- How often the sink will still be interrupted. -/
def patience (sink : ScriptedSink) : Nat := sink.replies.count .interrupted

theorem offer_cases {sink after : ScriptedSink} {run : Bytes} {reply : Reply}
    (h : sink.offer run = (reply, after)) :
    (∃ count, reply = .accepted (min count run.length) ∧
      after.bytes = sink.bytes ++ run.take count ∧ after.patience ≤ sink.patience) ∨
    (reply = .interrupted ∧ after.bytes = sink.bytes ∧ after.patience < sink.patience) ∨
    ∃ cause, reply = .failed cause ∧ after.bytes = sink.bytes := by
  unfold offer take at h
  split at h
  · cases h
    exact .inl ⟨_, rfl, rfl, Nat.zero_le _⟩
  · next count replies hreplies =>
    cases h
    exact .inl ⟨count, rfl, rfl, by simp [patience, hreplies]⟩
  · next first replies hother hreplies =>
    cases h
    cases reply with
    | accepted count => exact absurd rfl (hother count)
    | interrupted => exact .inr (.inl ⟨rfl, rfl, by simp [patience, hreplies]⟩)
    | failed cause => exact .inr (.inr ⟨cause, rfl, rfl⟩)

instance : Sink ScriptedSink Bytes where
  taken := bytes
  patience := patience
  offer := offer
  finish sink := .ok sink.bytes
  accepted_le h := by
    have := offer_cases h
    grind
  taken_of_accepted h := by
    have := offer_cases h
    grind
  patience_of_accepted h := by
    have := offer_cases h
    grind
  taken_of_interrupted h := by
    have := offer_cases h
    grind
  patience_of_interrupted h := by
    have := offer_cases h
    grind
  taken_of_failed h := by
    have := offer_cases h
    grind

end ScriptedSink
end PlaneArchive
