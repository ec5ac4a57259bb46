import PlaneArchive.Proofs.Writer.Packing

/-! # Poisoned writers

A writer is poisoned exactly from the first request at which a block could not be written. From
then on it answers every request with the same failure and leaves its sink alone.
-/
namespace PlaneArchive.Session

variable {σ ι : Type} [Sink σ ι] {session : Session σ} {request : Request}

/-- A usable writer could not write a block. A refused record does not get that far. -/
structure FlushFails (session : Session σ) (request : Request) : Prop where
  isOpen : session.isOpen = true
  usable : session.writer.poisoned = false
  not_refused : session.writer.options.refusal? session.writer.payloadLimit request = none
  fails : ∃ e, (session.writer.work request).1 = .error e

def poisonedAnswer : Request → Answer ι
  | .write _ | .flush => .worked (.error .poisoned)
  | .close => .finished (.error .poisoned)

theorem perform_of_poisoned (hp : session.writer.poisoned = true) (request : Request) :
    (session.perform request).1 =
        (if session.isOpen then poisonedAnswer request else .alreadyClosed) ∧
      (session.perform request).2.writer = session.writer := by
  cases hopen : session.isOpen with
  | false =>
    rw [perform_of_closed hopen]
    exact ⟨rfl, rfl⟩
  | true =>
    rw [perform_of_open hopen, Writer.work_of_poisoned hp]
    cases request <;> exact ⟨rfl, rfl⟩

theorem after_of_poisoned (hp : session.writer.poisoned = true) (requests : List Request) :
    (session.after requests).writer = session.writer := by
  induction requests using List.reverseRecOn with
  | nil => rfl
  | append_singleton requests request ih =>
    rw [after_append_singleton]
    exact ((perform_of_poisoned (ih.symm ▸ hp) request).2).trans ih

theorem after_append (session : Session σ) (requests more : List Request) :
    session.after (requests ++ more) = (session.after requests).after more := by
  rw [after, List.foldl_append]
  rfl

theorem payloadLimit_after {start : Writer σ} (hs : start.Fresh) (requests : List Request) :
    (Session.after { writer := start } requests).writer.payloadLimit ≤ Block.sizeLimit := by
  rw [after_eq hs]
  dsimp only
  rw [(start.settled_keeps _).2]
  exact hs.limit_le

theorem poisoned_of_flushFails (hl : session.writer.payloadLimit ≤ Block.sizeLimit)
    (h : session.FlushFails request) : (session.perform request).2.writer.poisoned = true := by
  obtain ⟨e, he⟩ := h.fails
  rw [perform_of_open h.isOpen]
  exact Writer.poisoned_of_work_error hl h.not_refused he

/-- After a failed flush every answer is the failure of a poisoned writer, and the sink stays as the
failed flush left it. -/
theorem answer_after_flushFails {start : Writer σ} (hs : start.Fresh) {earlier : List Request}
    (h : (Session.after { writer := start } earlier).FlushFails request)
    (later : List Request) (next : Request) :
    let session := Session.after { writer := start } (earlier ++ request :: later)
    (session.perform next).1 =
        (if session.isOpen then poisonedAnswer next else .alreadyClosed) ∧
      session.writer = (Session.after { writer := start } (earlier ++ [request])).writer := by
  intro session
  have hpoisoned : (Session.after { writer := start } (earlier ++ [request])).writer.poisoned =
      true := by
    rw [after_append_singleton]
    exact poisoned_of_flushFails (payloadLimit_after hs earlier) h
  have hkept : session.writer =
      (Session.after { writer := start } (earlier ++ [request])).writer := by
    have hsplit : earlier ++ request :: later = (earlier ++ [request]) ++ later := by simp
    change (Session.after { writer := start } (earlier ++ request :: later)).writer = _
    rw [hsplit, after_append]
    exact after_of_poisoned hpoisoned later
  exact ⟨(perform_of_poisoned (hkept.symm ▸ hpoisoned) next).1, hkept⟩

/-- If a block of a packing could not be written, this happened at one of the requests. -/
theorem exists_flushFails {start : Writer σ} (hs : start.Fresh) {requests : List Request}
    {e : ArchiveError}
    (he : (start.settled (start.options.pack start.payloadLimit requests)).1 = .error e) :
    ∃ earlier request later, requests = earlier ++ request :: later ∧
      (Session.after { writer := start } earlier).FlushFails request := by
  induction requests using List.reverseRecOn with
  | nil =>
    change (start.settled {}).1 = .error e at he
    rw [Writer.settled_initial hs] at he
    cases he
  | append_singleton requests request ih =>
    rw [WriterOptions.pack_append_singleton] at he
    cases hbefore : start.settled (start.options.pack start.payloadLimit requests) with
    | mk outcome after =>
      cases outcome with
      | error earlierError =>
        rw [(Writer.settled_perform_of_error hbefore _ _ request).1] at he
        rw [hbefore] at ih
        obtain ⟨earlier, first, later, rfl, hfails⟩ := ih he
        exact ⟨earlier, first, later ++ [request], by simp, hfails⟩
      | ok _ =>
        refine ⟨requests, request, [], rfl, ?_⟩
        have hsession := after_eq hs requests
        dsimp only at hsession
        rw [hbefore] at hsession
        cases hopen : (start.options.pack start.payloadLimit requests).isOpen with
        | false =>
          rw [Packing.perform, hopen, if_neg Bool.false_ne_true, hbefore] at he
          cases he
        | true =>
          obtain ⟨hoptions, hlimit, hpoisoned, _⟩ := Writer.settled_of_ok hbefore
          rw [hsession]
          cases hr : start.options.refusal? start.payloadLimit request with
          | some refusal =>
            rw [(Writer.work_of_refused hs hopen hbefore hr).2] at he
            cases he
          | none =>
            have hstep := Writer.work_of_settled hs hopen hbefore hr
            exact {
              isOpen := hopen
              usable := hpoisoned.trans hs.not_poisoned
              not_refused := by
                dsimp only
                rw [hoptions, hlimit]
                exact hr
              fails := ⟨e, by rw [hstep]; exact he⟩ }

end PlaneArchive.Session
