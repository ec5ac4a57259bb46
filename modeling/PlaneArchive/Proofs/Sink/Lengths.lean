import PlaneArchive.Proofs.Sink.Filling

/-! # Sinks that go by lengths

A sink may answer offers without looking at the bytes. Two such sinks that are alike then take
different bytes in the same way, as long as the runs that they are offered have the same lengths.
A sink with limited room is one of them.
-/
namespace PlaneArchive

namespace Sink

variable {σ ι : Type} [Sink σ ι] {R : σ → σ → Prop} {sink twin after : σ} {bytes others : Bytes}

/-- Sinks that are related answer offers of equal length alike and stay related. -/
structure GoesByLength (R : σ → σ → Prop) : Prop where
  reply_eq : ∀ sink twin bytes others, R sink twin → bytes.length = others.length →
    (offer twin others).1 = (offer sink bytes).1
  kept : ∀ sink twin bytes others, R sink twin → bytes.length = others.length →
    R (offer sink bytes).2 (offer twin others).2

/-- The twin answers what a sink is known to have answered. -/
theorem GoesByLength.offer_eq {reply : Reply} (h : GoesByLength R) (hrel : R sink twin)
    (hlen : bytes.length = others.length) (hoffer : offer sink bytes = (reply, after)) :
    ∃ next, offer twin others = (reply, next) ∧ R after next := by
  refine ⟨(offer twin others).2, ?_, ?_⟩
  · have hreply := h.reply_eq sink twin bytes others hrel hlen
    rw [hoffer] at hreply
    exact Prod.ext hreply rfl
  · have hkept := h.kept sink twin bytes others hrel hlen
    rwa [hoffer] at hkept

theorem GoesByLength.writeAll_alike (h : GoesByLength R) (hrel : R sink twin)
    (hlen : bytes.length = others.length) :
    (writeAll twin others).1 = (writeAll sink bytes).1 ∧
      R (writeAll sink bytes).2 (writeAll twin others).2 := by
  fun_induction writeAll sink bytes generalizing twin others with
  | case1 sink =>
    obtain rfl : others = [] := List.length_eq_zero_iff.mp hlen.symm
    rw [writeAll]
    exact ⟨rfl, hrel⟩
  | case2 sink byte more next hoffer =>
    obtain ⟨first, rest, rfl⟩ := List.exists_cons_of_length_eq_add_one hlen.symm
    obtain ⟨after, htwin, hafter⟩ := h.offer_eq hrel hlen hoffer
    rw [writeAll_of_refused htwin]
    exact ⟨rfl, hafter⟩
  | case3 sink byte more count next hoffer ih =>
    obtain ⟨first, rest, rfl⟩ := List.exists_cons_of_length_eq_add_one hlen.symm
    obtain ⟨after, htwin, hafter⟩ := h.offer_eq hrel hlen hoffer
    rw [writeAll_of_accepted htwin]
    refine ih hafter ?_
    simp only [List.length_cons, List.length_drop] at hlen ⊢
    omega
  | case4 sink byte more next hoffer ih =>
    obtain ⟨first, rest, rfl⟩ := List.exists_cons_of_length_eq_add_one hlen.symm
    obtain ⟨after, htwin, hafter⟩ := h.offer_eq hrel hlen hoffer
    rw [writeAll_of_interrupted htwin]
    exact ih hafter hlen
  | case5 sink byte more cause next hoffer =>
    obtain ⟨first, rest, rfl⟩ := List.exists_cons_of_length_eq_add_one hlen.symm
    obtain ⟨after, htwin, hafter⟩ := h.offer_eq hrel hlen hoffer
    rw [writeAll_of_failed htwin]
    exact ⟨rfl, hafter⟩

theorem GoesByLength.writeParts_alike {parts more : List Bytes} (h : GoesByLength R)
    (hrel : R sink twin) (hlen : parts.map List.length = more.map List.length) :
    (writeParts twin more).1 = (writeParts sink parts).1 ∧
      R (writeParts sink parts).2 (writeParts twin more).2 := by
  induction parts generalizing sink twin more with
  | nil =>
    obtain rfl : more = [] := List.map_eq_nil_iff.mp hlen.symm
    exact ⟨rfl, hrel⟩
  | cons part parts ih =>
    cases more with
    | nil => simp at hlen
    | cons other more =>
      simp only [List.map_cons, List.cons.injEq] at hlen
      obtain ⟨hfirst, hkept⟩ := h.writeAll_alike hrel hlen.1
      simp only [writeParts]
      cases hw : writeAll sink part with
      | mk outcome after =>
        cases hw' : writeAll twin other with
        | mk outcome' after' =>
          rw [hw, hw'] at hfirst hkept
          obtain rfl : outcome' = outcome := hfirst
          cases outcome' with
          | ok _ => exact ih hkept hlen.2
          | error cause => exact ⟨rfl, hkept⟩

end Sink

/-- Sinks with the same room left, which fail in the same way. -/
def LimitedSink.Level (sink twin : LimitedSink) : Prop :=
  twin.room? = sink.room? ∧ twin.faults = sink.faults

theorem LimitedSink.goesByLength : Sink.GoesByLength LimitedSink.Level where
  reply_eq := by
    rintro sink twin bytes others ⟨hroom, hfaults⟩ hlen
    change (offer twin others).1 = (offer sink bytes).1
    simp only [offer, hroom, hfaults]
    split
    · simp [hlen]
    · split <;> rfl
    · simp [hlen]
  kept := by
    rintro sink twin bytes others ⟨hroom, hfaults⟩ hlen
    change Level (offer sink bytes).2 (offer twin others).2
    simp only [offer, hroom, hfaults]
    split
    · exact ⟨rfl, rfl⟩
    · split <;> exact ⟨hroom, hfaults⟩
    · exact ⟨by simp [hlen], rfl⟩

end PlaneArchive
