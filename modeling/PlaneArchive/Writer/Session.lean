import PlaneArchive.Writer.Basic

/-! # A writer in use

A writer is driven by one owner, request by request, until it is closed. Closing ends it whether it
succeeds or not. The session keeps the last state, so that after every request one can ask what
the sink has taken and what is pending.
-/
namespace PlaneArchive

inductive Request where
  | write (record : FileRecord)
  | flush
  | close
  deriving DecidableEq, Repr

inductive Answer (ι : Type) where
  /-- A record was written, or a block flushed, or that failed. -/
  | worked (outcome : Except ArchiveError Unit)
  /-- The writer was closed, or closing failed. -/
  | finished (outcome : Except ArchiveError ι)
  | alreadyClosed

/-- A writer, and whether it still takes requests. -/
structure Session (σ : Type) where
  writer : Writer σ
  isOpen : Bool := true

namespace Session

variable {σ ι : Type} [Sink σ ι]

def perform (session : Session σ) (request : Request) : Answer ι × Session σ :=
  if session.isOpen then
    match request with
    | .write r =>
      let (outcome, writer) := session.writer.write r
      (.worked outcome, { writer })
    | .flush =>
      let (outcome, writer) := session.writer.flush
      (.worked outcome, { writer })
    | .close =>
      let (outcome, writer) := session.writer.close
      (.finished outcome, { writer, isOpen := false })
  else (.alreadyClosed, session)

/-- Carries out requests in order, and keeps the state after each beside its answer. -/
def run (session : Session σ) : List Request → List (Answer ι × Session σ)
  | [] => []
  | request :: requests =>
    let step := session.perform request
    step :: step.2.run requests

def after (session : Session σ) (requests : List Request) : Session σ :=
  requests.foldl (fun session request => (session.perform request).2) session

def taken (session : Session σ) : Bytes := Sink.taken session.writer.sink

end Session
end PlaneArchive
