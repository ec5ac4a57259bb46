import PlaneArchive.Sink.Basic

/-! # A growing buffer

The sink that takes everything.
-/
namespace PlaneArchive

/-- Bytes held in memory, as the runs in which they arrived, newest first. -/
structure Buffer where
  runs : List Bytes := []
  deriving DecidableEq, Repr

namespace Buffer

def bytes (buffer : Buffer) : Bytes := buffer.runs.reverse.flatten

def push (buffer : Buffer) (run : Bytes) : Buffer := ⟨run :: buffer.runs⟩

@[simp] theorem bytes_push (buffer : Buffer) (run : Bytes) :
    (buffer.push run).bytes = buffer.bytes ++ run := by
  simp [push, bytes]

@[simp] theorem bytes_empty : ({} : Buffer).bytes = [] := rfl

instance : Sink Buffer Bytes where
  taken := bytes
  patience _ := 0
  offer buffer run := (.accepted run.length, buffer.push run)
  finish buffer := .ok buffer.bytes
  accepted_le h := by
    injection h with h _
    injection h with h
    exact Nat.le_of_eq h.symm
  taken_of_accepted h := by
    injection h with h hs
    injection h with h
    subst h hs
    simp
  patience_of_accepted _ := Nat.le_refl _
  taken_of_interrupted h := by
    injection h with h _
    cases h
  patience_of_interrupted h := by
    injection h with h _
    cases h
  taken_of_failed h := by
    injection h with h _
    cases h

end Buffer
end PlaneArchive
