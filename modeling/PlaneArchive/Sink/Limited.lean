import PlaneArchive.Sink.Buffer

/-! # A sink that fills up

The sink takes bytes up to a limit, the last run possibly in part. After that it fails, or takes
nothing, for good. Finishing it may fail as well.
-/
namespace PlaneArchive

structure SinkFaults where
  /-- The failure at the limit; without one the sink takes nothing and reports no cause. -/
  full? : Option String := none
  finish? : Option String := none
  deriving DecidableEq, Repr

/-- A buffer with `room?` more bytes of space; `none` means unlimited space. -/
structure LimitedSink where
  buffer : Buffer := {}
  room? : Option Nat := none
  faults : SinkFaults := {}
  deriving DecidableEq, Repr

namespace LimitedSink

def offer (sink : LimitedSink) (run : Bytes) : Reply × LimitedSink :=
  match sink.room? with
  | none => (.accepted run.length, { sink with buffer := sink.buffer.push run })
  | some 0 =>
    match sink.faults.full? with
    | some text => (.failed (.other text), sink)
    | none => (.accepted 0, sink)
  | some (room + 1) =>
    let part := run.take (room + 1)
    (.accepted part.length,
      { sink with buffer := sink.buffer.push part, room? := some (room + 1 - part.length) })

def finish (sink : LimitedSink) : Except IoError Unit :=
  match sink.faults.finish? with
  | some text => .error (.other text)
  | none => .ok ()

instance : Sink LimitedSink Unit where
  taken sink := sink.buffer.bytes
  patience _ := 0
  offer := offer
  finish := finish
  accepted_le h := by
    unfold offer at h
    grind
  taken_of_accepted h := by
    unfold offer at h
    split at h
    · injection h with h hs
      injection h with h
      subst h hs
      simp
    · split at h
      · injection h with h _
        cases h
      · injection h with h hs
        injection h with h
        subst h hs
        simp
    · injection h with h hs
      injection h with h
      subst h hs
      simp [List.take_eq_take_min]
  patience_of_accepted _ := Nat.le_refl _
  taken_of_interrupted h := by
    unfold offer at h
    grind
  patience_of_interrupted h := by
    unfold offer at h
    grind
  taken_of_failed h := by
    unfold offer at h
    grind

end LimitedSink
end PlaneArchive
