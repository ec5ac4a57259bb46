import Mathlib.Data.Nat.Notation
import Mathlib.Logic.Relation
import PlaneArchive.Sink.Limited

/-! # What a sink takes of several runs

A buffer takes all that is written to it. A sink with limited room takes exactly the front of what
is written that fits its room, no matter into how many runs the bytes are divided, and reports a
failure as soon as something does not fit.
-/
namespace PlaneArchive

namespace Sink

variable {σ ι : Type} [Sink σ ι] {sink after : σ} {byte : UInt8} {more : Bytes}

theorem writeAll_of_accepted {count : ℕ}
    (h : offer sink (byte :: more) = (.accepted (count + 1), after)) :
    writeAll sink (byte :: more) = writeAll after (more.drop count) := by
  rw [writeAll]
  split <;> simp_all

theorem writeAll_of_refused (h : offer sink (byte :: more) = (.accepted 0, after)) :
    writeAll sink (byte :: more) = (.error .refused, after) := by
  rw [writeAll]
  split <;> simp_all

theorem writeAll_of_interrupted (h : offer sink (byte :: more) = (.interrupted, after)) :
    writeAll sink (byte :: more) = writeAll after (byte :: more) := by
  rw [writeAll]
  split <;> simp_all

theorem writeAll_of_failed {cause : IoError}
    (h : offer sink (byte :: more) = (.failed cause, after)) :
    writeAll sink (byte :: more) = (.error cause, after) := by
  rw [writeAll]
  split <;> simp_all

theorem taken_of_writeAll {bytes : Bytes} (h : writeAll sink bytes = (.ok (), after)) :
    taken after = taken sink ++ bytes := by
  fun_induction writeAll sink bytes with
  | case1 sink =>
    cases h
    exact (List.append_nil _).symm
  | case2 sink byte more next hoffer => cases h
  | case3 sink byte more count next hoffer ih =>
    rw [ih h, taken_of_accepted hoffer]
    simp
  | case4 sink byte more next hoffer ih => rw [ih h, taken_of_interrupted hoffer]
  | case5 sink byte more cause next hoffer => cases h

/-- Runs are all written if the first is and then the others are. -/
theorem writeParts_cons_ok {part : Bytes} {parts : List Bytes}
    (h : writeParts sink (part :: parts) = (.ok (), after)) :
    ∃ between, writeAll sink part = (.ok (), between) ∧
      writeParts between parts = (.ok (), after) := by
  rw [writeParts] at h
  cases hw : writeAll sink part with
  | mk outcome between =>
    rw [hw] at h
    cases outcome with
    | error cause => cases h
    | ok _ => exact ⟨between, rfl, h⟩

theorem taken_of_writeParts {parts : List Bytes} (h : writeParts sink parts = (.ok (), after)) :
    taken after = taken sink ++ parts.flatten := by
  induction parts generalizing sink with
  | nil =>
    cases h
    exact (List.append_nil _).symm
  | cons part parts ih =>
    obtain ⟨between, hw, hrest⟩ := writeParts_cons_ok h
    rw [ih hrest, taken_of_writeAll hw, List.flatten_cons, List.append_assoc]

theorem writeParts_append {parts : List Bytes} (h : writeParts sink parts = (.ok (), after))
    (more : List Bytes) : writeParts sink (parts ++ more) = writeParts after more := by
  induction parts generalizing sink with
  | nil =>
    cases h
    rfl
  | cons part parts ih =>
    obtain ⟨between, hw, hrest⟩ := writeParts_cons_ok h
    rw [List.cons_append, writeParts, hw]
    exact ih hrest

/-- A sink is what another has become by offers. -/
def Follows : σ → σ → Prop :=
  Relation.ReflTransGen fun sink after => ∃ bytes, (offer sink bytes).2 = after

theorem Follows.of_offer {bytes : Bytes} {reply : Reply} {last : σ}
    (h : offer sink bytes = (reply, after)) (hrest : Follows after last) : Follows sink last :=
  Relation.ReflTransGen.head ⟨bytes, congrArg Prod.snd h⟩ hrest

theorem follows_writeAll (sink : σ) (bytes : Bytes) : Follows sink (writeAll sink bytes).2 := by
  fun_induction writeAll sink bytes with
  | case1 sink => exact .refl
  | case2 sink byte more next hoffer => exact .of_offer hoffer .refl
  | case3 sink byte more count next hoffer ih => exact .of_offer hoffer ih
  | case4 sink byte more next hoffer ih => exact .of_offer hoffer ih
  | case5 sink byte more cause next hoffer => exact .of_offer hoffer .refl

theorem follows_writeParts (sink : σ) (parts : List Bytes) :
    Follows sink (writeParts sink parts).2 := by
  induction parts generalizing sink with
  | nil => exact .refl
  | cons part parts ih =>
    have hpart := follows_writeAll sink part
    rw [writeParts]
    cases hw : writeAll sink part with
    | mk outcome between =>
      rw [hw] at hpart
      cases outcome with
      | ok _ => exact hpart.trans (ih between)
      | error cause => exact hpart

/-- Whatever is written, all of it is taken, and finishing succeeds then. -/
def TakesAll (sink : σ) : Prop :=
  ∀ parts, ∃ after inner, writeParts sink parts = (.ok (), after) ∧ finish after = .ok inner

theorem TakesAll.exists_finish_eq (h : TakesAll sink) : ∃ inner, finish sink = .ok inner := by
  obtain ⟨after, inner, hparts, hfinish⟩ := h []
  cases hparts
  exact ⟨inner, hfinish⟩

/-- What a sink is after some runs takes everything as well. -/
theorem TakesAll.writeParts_eq (h : TakesAll sink) (parts : List Bytes) :
    ∃ after, writeParts sink parts = (.ok (), after) ∧
      taken after = taken sink ++ parts.flatten ∧ TakesAll after := by
  obtain ⟨after, _, hparts, _⟩ := h parts
  refine ⟨after, hparts, taken_of_writeParts hparts, fun more => ?_⟩
  rw [← writeParts_append hparts]
  exact h (parts ++ more)

section Accepting

variable (hoffer : ∀ (sink : σ) (bytes : Bytes),
  ∃ after, offer sink bytes = (.accepted bytes.length, after))
include hoffer

theorem exists_writeAll_eq (sink : σ) (bytes : Bytes) :
    ∃ after, writeAll sink bytes = (.ok (), after) := by
  cases bytes with
  | nil =>
    rw [writeAll]
    exact ⟨sink, rfl⟩
  | cons byte more =>
    obtain ⟨after, hafter⟩ := hoffer sink (byte :: more)
    rw [writeAll_of_accepted hafter, List.drop_length, writeAll]
    exact ⟨after, rfl⟩

/-- A sink that takes every run as a whole, and can always be finished, takes everything. -/
theorem takesAll_of_accepts (hfinish : ∀ sink : σ, ∃ inner, finish sink = .ok inner) (sink : σ) :
    TakesAll sink := by
  intro parts
  induction parts generalizing sink with
  | nil =>
    obtain ⟨inner, hinner⟩ := hfinish sink
    exact ⟨sink, inner, rfl, hinner⟩
  | cons part parts ih =>
    obtain ⟨between, hwrite⟩ := exists_writeAll_eq hoffer sink part
    rw [writeParts, hwrite]
    exact ih between

end Accepting

end Sink

theorem Buffer.takesAll (buffer : Buffer) : Sink.TakesAll buffer :=
  Sink.takesAll_of_accepts (fun _ _ => ⟨_, rfl⟩) (fun _ => ⟨_, rfl⟩) buffer

namespace LimitedSink

/-- A sink with this much room has been given some bytes, and has failed if they did not fit. -/
structure Fills (sink : LimitedSink) (room : ℕ) (bytes : Bytes)
    (outcome : Except IoError Unit × LimitedSink) : Prop where
  taken_eq : outcome.2.buffer.bytes = sink.buffer.bytes ++ bytes.take room
  room_eq : outcome.2.room? = some (room - bytes.length)
  ok_iff : outcome.1 = .ok () ↔ bytes.length ≤ room

variable {sink : LimitedSink} {room : ℕ}

theorem fills_nil (h : sink.room? = some room) : sink.Fills room [] (.ok (), sink) where
  taken_eq := by simp
  room_eq := h
  ok_iff := by simp

theorem fills_writeAll_of_full (h : sink.room? = some 0) (bytes : Bytes) :
    sink.Fills 0 bytes (Sink.writeAll sink bytes) := by
  cases bytes with
  | nil =>
    rw [Sink.writeAll]
    exact fills_nil h
  | cons byte more =>
    have hfull : ∀ cause, sink.Fills 0 (byte :: more) (.error cause, sink) := fun cause =>
      { taken_eq := by simp
        room_eq := by simpa using h
        ok_iff := by simp }
    cases hf : sink.faults.full? with
    | some text =>
      have hoffer : Sink.offer sink (byte :: more) = (.failed (.other text), sink) := by
        change offer sink (byte :: more) = _
        simp only [offer, h, hf]
      rw [Sink.writeAll_of_failed hoffer]
      exact hfull _
    | none =>
      have hoffer : Sink.offer sink (byte :: more) = (.accepted 0, sink) := by
        change offer sink (byte :: more) = _
        simp only [offer, h, hf]
      rw [Sink.writeAll_of_refused hoffer]
      exact hfull _

/-- One run is taken as far as there is room. -/
theorem fills_writeAll (h : sink.room? = some room) (bytes : Bytes) :
    sink.Fills room bytes (Sink.writeAll sink bytes) := by
  cases room with
  | zero => exact fills_writeAll_of_full h bytes
  | succ room =>
    cases bytes with
    | nil =>
      rw [Sink.writeAll]
      exact fills_nil h
    | cons byte more =>
      have hoffer : Sink.offer sink (byte :: more) =
          (.accepted ((more.take room).length + 1),
            { sink with
              buffer := sink.buffer.push (byte :: more.take room)
              room? := some (room - (more.take room).length) }) := by
        change offer sink (byte :: more) = _
        rw [offer, h]
        simp
      rw [Sink.writeAll_of_accepted hoffer]
      by_cases hfit : more.length ≤ room
      · rw [List.take_of_length_le hfit, List.drop_length, Sink.writeAll]
        exact {
          taken_eq := by simp [List.take_of_length_le hfit]
          room_eq := by simp
          ok_iff := by simpa using hfit }
      · -- What does not fit is offered again, to a sink that is full by now.
        have hlen : (more.take room).length = room := by
          rw [List.length_take]
          omega
        rw [hlen, Nat.sub_self]
        have hfull : ({ sink with
            buffer := sink.buffer.push (byte :: more.take room)
            room? := some 0 } : LimitedSink).room? = some 0 := rfl
        have hrest := fills_writeAll_of_full hfull (more.drop room)
        exact {
          taken_eq := by rw [hrest.taken_eq]; simp
          room_eq := by
            rw [hrest.room_eq, List.length_cons]
            congr 1
            omega
          ok_iff := by
            rw [hrest.ok_iff, List.length_drop, List.length_cons]
            omega }

/-- Dividing the bytes into runs makes no difference. -/
theorem fills_writeParts (h : sink.room? = some room) (parts : List Bytes) :
    sink.Fills room parts.flatten (Sink.writeParts sink parts) := by
  induction parts generalizing sink room with
  | nil => exact fills_nil h
  | cons part parts ih =>
    have hpart := fills_writeAll h part
    rw [Sink.writeParts]
    cases hw : Sink.writeAll sink part with
    | mk outcome between =>
      rw [hw] at hpart
      cases outcome with
      | ok _ =>
        have hfit : part.length ≤ room := hpart.ok_iff.mp rfl
        have hrest := ih hpart.room_eq
        exact {
          taken_eq := by
            rw [hrest.taken_eq, hpart.taken_eq, List.flatten_cons, List.take_append,
              List.take_of_length_le hfit, List.append_assoc]
          room_eq := by
            rw [hrest.room_eq, List.flatten_cons, List.length_append]
            congr 1
            omega
          ok_iff := by
            rw [hrest.ok_iff, List.flatten_cons, List.length_append]
            omega }
      | error cause =>
        have hfull : room < part.length := by
          refine Nat.lt_of_not_le fun hfit => ?_
          have := hpart.ok_iff.mpr hfit
          cases this
        exact {
          taken_eq := by
            rw [hpart.taken_eq, List.flatten_cons, List.take_append_of_le_length (by omega)]
          room_eq := by
            rw [hpart.room_eq, List.flatten_cons, List.length_append]
            congr 1
            omega
          ok_iff := by
            rw [List.flatten_cons, List.length_append]
            constructor
            · intro hok
              cases hok
            · omega }

end LimitedSink

end PlaneArchive
