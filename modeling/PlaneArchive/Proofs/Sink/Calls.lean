import Mathlib.Data.Nat.Notation
import PlaneArchive.Proofs.Sink.Filling
import PlaneArchive.Sink.Recorder

/-! # The calls that writing makes

Writing offers what is left of a run until nothing is left or the sink gives up, one run after
another. However the sink answers, it is offered the bytes in order, none of them again once it has
been taken, and nothing after the first failure.
-/
namespace PlaneArchive

namespace Sink

/-- Writing these runs makes these calls, and comes to this end. -/
inductive Makes : List Bytes → List Call → Except IoError Unit → Prop where
  | finish : Makes [] [] (.ok ())
  | skip {parts : List Bytes} {calls : List Call} {outcome : Except IoError Unit}
      (h : Makes parts calls outcome) : Makes ([] :: parts) calls outcome
  | goOn {part : Bytes} {parts : List Bytes} {reply : Reply} {calls : List Call}
      {outcome : Except IoError Unit} (hne : part ≠ [])
      (hreply : (Call.mk part reply).fault? = none)
      (h : Makes (part.drop (Call.mk part reply).accepted.length :: parts) calls outcome) :
      Makes (part :: parts) (⟨part, reply⟩ :: calls) outcome
  | giveUp {part : Bytes} {parts : List Bytes} {reply : Reply} {cause : IoError} (hne : part ≠ [])
      (hreply : (Call.mk part reply).fault? = some cause) :
      Makes (part :: parts) [⟨part, reply⟩] (.error cause)

namespace Call

variable {call : Call} {calls more : List Call} {cause : IoError}

@[simp] theorem acceptedIn_nil : acceptedIn [] = [] := rfl

@[simp] theorem acceptedIn_cons : acceptedIn (call :: calls) = call.accepted ++ acceptedIn calls :=
  List.flatMap_cons

@[simp] theorem acceptedIn_append :
    acceptedIn (calls ++ more) = acceptedIn calls ++ acceptedIn more := List.flatMap_append

theorem accepted_prefix (call : Call) : call.accepted <+: call.offered := by
  obtain ⟨offered, reply⟩ := call
  cases reply with
  | accepted count => exact List.take_prefix _ _
  | interrupted => exact List.nil_prefix
  | failed cause => exact List.nil_prefix

theorem accepted_append_drop (call : Call) :
    call.accepted ++ call.offered.drop call.accepted.length = call.offered := by
  obtain ⟨rest, hrest⟩ := call.accepted_prefix
  rw [← hrest, List.drop_left]

/-- A call that ends the writing has taken nothing. -/
theorem accepted_of_fault (h : call.fault? = some cause) : call.accepted = [] := by
  obtain ⟨offered, reply⟩ := call
  cases reply with
  | accepted count =>
    cases count with
    | zero => rfl
    | succ count => cases h
  | interrupted => rfl
  | failed cause => rfl

end Call

namespace Makes

variable {parts : List Bytes} {calls : List Call} {outcome : Except IoError Unit}

/-- A call leaves of the part that it offers what it has not taken. -/
theorem flatten_rest (part : Bytes) (reply : Reply) (parts : List Bytes) :
    (part :: parts).flatten = (Call.mk part reply).accepted ++
      (part.drop (Call.mk part reply).accepted.length :: parts).flatten := by
  have hsplit := Call.accepted_append_drop ⟨part, reply⟩
  rw [List.flatten_cons, List.flatten_cons, ← List.append_assoc, hsplit]

/-- Nothing is repeated or skipped: what has been taken is the front of what is written, and each
call offers the front of the rest. -/
theorem resumes (h : Makes parts calls outcome) {before later : List Call} {call : Call}
    (hcalls : calls = before ++ call :: later) :
    ∃ rest, parts.flatten = Call.acceptedIn before ++ rest ∧ call.offered <+: rest := by
  induction h generalizing before with
  | finish => simp at hcalls
  | skip _ ih => exact ih hcalls
  | @goOn part parts reply calls outcome hne hreply _ ih =>
    cases before with
    | nil =>
      rw [List.nil_append, List.cons.injEq] at hcalls
      obtain ⟨rfl, _⟩ := hcalls
      exact ⟨_, rfl, List.prefix_append _ _⟩
    | cons first before =>
      rw [List.cons_append, List.cons.injEq] at hcalls
      obtain ⟨rfl, hlater⟩ := hcalls
      obtain ⟨rest, hrest, hoffered⟩ := ih hlater
      refine ⟨rest, ?_, hoffered⟩
      rw [flatten_rest part reply, hrest, Call.acceptedIn_cons, List.append_assoc]
  | @giveUp part parts reply cause hne hreply =>
    cases before with
    | nil =>
      rw [List.nil_append, List.cons.injEq] at hcalls
      obtain ⟨rfl, _⟩ := hcalls
      exact ⟨_, rfl, List.prefix_append _ _⟩
    | cons first before => simp at hcalls

/-- Every call offers the rest of one part, and no call offers nothing. -/
theorem offers_part (h : Makes parts calls outcome) :
    ∀ call ∈ calls, call.offered ≠ [] ∧ ∃ part ∈ parts, call.offered <:+ part := by
  induction h with
  | finish => simp
  | skip _ ih =>
    intro call hmem
    obtain ⟨hne, part, hpart, hsuffix⟩ := ih call hmem
    exact ⟨hne, part, List.mem_cons_of_mem _ hpart, hsuffix⟩
  | @goOn part parts reply calls outcome hne hreply _ ih =>
    intro call hmem
    rcases List.mem_cons.mp hmem with rfl | hlater
    · exact ⟨hne, part, List.mem_cons_self, List.suffix_rfl⟩
    · obtain ⟨hoffered, other, hother, hsuffix⟩ := ih call hlater
      refine ⟨hoffered, ?_⟩
      rcases List.mem_cons.mp hother with rfl | hrest
      · exact ⟨part, List.mem_cons_self, hsuffix.trans (List.drop_suffix _ _)⟩
      · exact ⟨other, List.mem_cons_of_mem _ hrest, hsuffix⟩
  | @giveUp part parts reply cause hne hreply =>
    intro call hmem
    obtain rfl := List.mem_singleton.mp hmem
    exact ⟨hne, part, List.mem_cons_self, List.suffix_rfl⟩

theorem accepted_prefix (h : Makes parts calls outcome) :
    Call.acceptedIn calls <+: parts.flatten := by
  induction h with
  | finish => exact List.prefix_rfl
  | skip _ ih => exact ih
  | @goOn part parts reply calls outcome _ _ _ ih =>
    rw [flatten_rest part reply, Call.acceptedIn_cons]
    exact (List.prefix_append_right_inj _).mpr ih
  | giveUp _ hreply =>
    rw [Call.acceptedIn_cons, Call.accepted_of_fault hreply]
    exact List.nil_prefix

/-- Writing succeeds exactly if everything has been taken. -/
theorem ok_iff (h : Makes parts calls outcome) :
    outcome = .ok () ↔ Call.acceptedIn calls = parts.flatten := by
  induction h with
  | finish => simp
  | skip _ ih => exact ih
  | @goOn part parts reply calls outcome _ _ _ ih =>
    rw [ih, flatten_rest part reply, Call.acceptedIn_cons, List.append_cancel_left_eq]
  | @giveUp part parts reply cause hne hreply =>
    rw [Call.acceptedIn_cons, Call.accepted_of_fault hreply]
    constructor
    · intro hok
      cases hok
    · intro hnil
      exact absurd (List.append_eq_nil_iff.mp hnil.symm).1 hne

/-- An error is that of the last call, and no call before it was one to give up at. -/
theorem error_of_last (h : Makes parts calls outcome) :
    outcome = .ok () ∧ (∀ call ∈ calls, call.fault? = none) ∨
      ∃ before last cause, calls = before ++ [last] ∧ (∀ call ∈ before, call.fault? = none) ∧
        last.fault? = some cause ∧ outcome = .error cause := by
  induction h with
  | finish => exact .inl ⟨rfl, by simp⟩
  | skip _ ih => exact ih
  | @goOn part parts reply calls outcome _ hreply _ ih =>
    rcases ih with ⟨hok, hnone⟩ | ⟨before, last, cause, rfl, hnone, hlast, herror⟩
    · exact .inl ⟨hok, List.forall_mem_cons.mpr ⟨hreply, hnone⟩⟩
    · exact .inr ⟨_ :: before, last, cause, rfl, List.forall_mem_cons.mpr ⟨hreply, hnone⟩, hlast,
        herror⟩
  | giveUp _ hreply => exact .inr ⟨[], _, _, rfl, by simp, hreply, rfl⟩

end Makes

variable {σ ι : Type} [Sink σ ι]

/-- Writing through a recorder is writing to the sink behind it, which takes what was accepted in
the calls that are recorded. -/
structure Records (recorder after : Recorder σ) (calls : List Call) : Prop where
  calls_eq : after.calls = recorder.calls ++ calls
  taken_eq : taken after.sink = taken recorder.sink ++ Call.acceptedIn calls

theorem Records.refl (recorder : Recorder σ) : Records recorder recorder [] where
  calls_eq := (List.append_nil _).symm
  taken_eq := (List.append_nil _).symm

theorem Records.trans {recorder between after : Recorder σ} {calls later : List Call}
    (h : Records recorder between calls) (hlater : Records between after later) :
    Records recorder after (calls ++ later) where
  calls_eq := by rw [hlater.calls_eq, h.calls_eq, List.append_assoc]
  taken_eq := by rw [hlater.taken_eq, h.taken_eq, List.append_assoc, Call.acceptedIn_append]

/-- One offer is one call. -/
theorem Records.of_offer {recorder after : Recorder σ} {bytes : Bytes} {reply : Reply}
    (h : recorder.offer bytes = (reply, after)) : Records recorder after [⟨bytes, reply⟩] where
  calls_eq := (Recorder.offer_eq h).2
  taken_eq := by
    have hinner := (Recorder.offer_eq h).1
    rw [Call.acceptedIn_cons, Call.acceptedIn_nil, List.append_nil]
    cases reply with
    | accepted count => exact taken_of_accepted hinner
    | interrupted => rw [taken_of_interrupted hinner, Call.accepted, List.append_nil]
    | failed cause => rw [taken_of_failed hinner, Call.accepted, List.append_nil]

/-- Writing one run makes calls that can be followed by those for further runs, if it succeeds, and
that end there otherwise. -/
theorem writeAll_recorder {recorder after : Recorder σ} {bytes : Bytes}
    {outcome : Except IoError Unit} (h : writeAll recorder bytes = (outcome, after)) :
    writeAll recorder.sink bytes = (outcome, after.sink) ∧
      ∃ calls, Records recorder after calls ∧
        (outcome = .ok () → ∀ {parts more result}, Makes parts more result →
          Makes (bytes :: parts) (calls ++ more) result) ∧
        ∀ cause, outcome = .error cause → ∀ parts, Makes (bytes :: parts) calls outcome := by
  fun_induction writeAll recorder bytes with
  | case1 recorder =>
    cases h
    refine ⟨by rw [writeAll], [], .refl _, ?_, ?_⟩
    · intro _ parts more result hmore
      exact .skip hmore
    · intro cause herror
      cases herror
  | case2 recorder byte more next hoffer =>
    cases h
    refine ⟨writeAll_of_refused (Recorder.offer_eq hoffer).1, _, .of_offer hoffer, ?_, ?_⟩
    · intro hok
      cases hok
    · intro cause herror parts
      exact .giveUp (List.cons_ne_nil _ _) rfl
  | case3 recorder byte more count next hoffer ih =>
    obtain ⟨hwrite, calls, hrecords, hok, herror⟩ := ih h
    obtain ⟨hinner, _⟩ := Recorder.offer_eq hoffer
    -- Of what is offered, the part that this call takes is `byte` and the next `count` bytes.
    have hfits : count ≤ more.length := Nat.le_of_succ_le_succ (accepted_le hinner)
    have hlength :
        (Call.mk (byte :: more) (.accepted (count + 1))).accepted.length = count + 1 := by
      rw [Call.accepted, List.length_take, List.length_cons]
      omega
    refine ⟨(writeAll_of_accepted hinner).trans hwrite, _, (Records.of_offer hoffer).trans hrecords,
      ?_, ?_⟩
    · intro hdone parts later result hlater
      refine .goOn (List.cons_ne_nil _ _) rfl ?_
      rw [hlength]
      exact hok hdone hlater
    · intro cause hcause parts
      refine .goOn (List.cons_ne_nil _ _) rfl ?_
      rw [hlength]
      exact herror cause hcause parts
  | case4 recorder byte more next hoffer ih =>
    obtain ⟨hwrite, calls, hrecords, hok, herror⟩ := ih h
    refine ⟨(writeAll_of_interrupted (Recorder.offer_eq hoffer).1).trans hwrite, _,
      (Records.of_offer hoffer).trans hrecords, ?_, ?_⟩
    · intro hdone parts later result hlater
      exact .goOn (List.cons_ne_nil _ _) rfl (hok hdone hlater)
    · intro cause hcause parts
      exact .goOn (List.cons_ne_nil _ _) rfl (herror cause hcause parts)
  | case5 recorder byte more cause next hoffer =>
    cases h
    refine ⟨writeAll_of_failed (Recorder.offer_eq hoffer).1, _, .of_offer hoffer, ?_, ?_⟩
    · intro hok
      cases hok
    · intro cause herror parts
      exact .giveUp (List.cons_ne_nil _ _) rfl

/-- Writing several runs through a recorder makes the calls that writing them makes. -/
theorem writeParts_recorder {recorder after : Recorder σ} {parts : List Bytes}
    {outcome : Except IoError Unit} (h : writeParts recorder parts = (outcome, after)) :
    writeParts recorder.sink parts = (outcome, after.sink) ∧
      ∃ calls, Records recorder after calls ∧ Makes parts calls outcome := by
  induction parts generalizing recorder with
  | nil =>
    cases h
    exact ⟨rfl, [], .refl _, .finish⟩
  | cons part parts ih =>
    rw [writeParts] at h ⊢
    cases hw : writeAll recorder part with
    | mk result between =>
      obtain ⟨hpart, calls, hrecords, hok, herror⟩ := writeAll_recorder hw
      rw [hw] at h
      rw [hpart]
      cases result with
      | ok _ =>
        obtain ⟨hrest, later, hlater, hmakes⟩ := ih h
        exact ⟨hrest, calls ++ later, hrecords.trans hlater, hok rfl hmakes⟩
      | error cause =>
        cases h
        exact ⟨rfl, calls, hrecords, herror cause rfl parts⟩

/-- A run of no bytes is never offered. -/
theorem writeParts_append_nil (sink : σ) (parts : List Bytes) :
    writeParts sink (parts ++ [[]]) = writeParts sink parts := by
  induction parts generalizing sink with
  | nil =>
    have hnothing : writeAll sink [] = (.ok (), sink) := by rw [writeAll]
    rw [List.nil_append, writeParts, writeParts, hnothing]
    rfl
  | cons part parts ih =>
    rw [List.cons_append, writeParts, writeParts]
    cases hw : writeAll sink part with
    | mk outcome between =>
      cases outcome with
      | ok _ => exact ih between
      | error cause => rfl

end Sink
end PlaneArchive
