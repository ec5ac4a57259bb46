import PlaneArchive.Proofs.Pipeline.Consumption
import PlaneArchive.Proofs.Pipeline.Progress
import PlaneArchive.Proofs.Pipeline.Termination
import PlaneArchive.Proofs.Writer.RoundTrip

/-! # What the pipeline reports can be read back

Over a sink that takes everything, the totals of the pipeline are those of the records that are read
back from the frames in the sink, and these records are the ones of the scan.
-/
namespace PlaneArchive.Pipeline

variable {σ ι : Type} [Sink σ ι]

/-- What a consumer asks of its writer. -/
def requests (records : List FileRecord) : List Request := records.map .write

/-- The blocks that the writer closes, up to the last, when it writes these records. -/
abbrev blocksOf (options : WriterOptions) (records : List FileRecord) : List Block :=
  (options.pack Block.sizeLimit (requests records ++ [.close])).closed

def contentBytes (records : List FileRecord) : ℕ :=
  (records.map fun record => record.content.length).sum

variable {options : WriterOptions} {sink : σ} {records earlier later : List FileRecord}

theorem close_notMem_requests (records : List FileRecord) : Request.close ∉ requests records := by
  intro hmem
  obtain ⟨record, _, heq⟩ := List.mem_map.mp hmem
  cases heq

theorem written_requests (records : List FileRecord) : written (requests records) = records := by
  rw [written, requests, List.filterMap_map]
  exact List.filterMap_some

theorem written_requests_append_close (records : List FileRecord) :
    written (requests records ++ [.close]) = records := by
  rw [written_append, written_requests]
  exact List.append_nil _

/-- The frames that a writer makes of some records, up to the last. -/
def framesOf (options : WriterOptions) (records : List FileRecord) : List Frame :=
  (blocksOf options records).map options.frameOf

theorem holds_blocksOf (hv : options.validate = .ok ())
    (hfit : ∀ record ∈ records, record.Fits options.page) :
    ∃ current batches, Holds options.page (blocksOf options records) current batches [] ∧
      batches.flatten = records := by
  have hwritten := written_requests records
  obtain ⟨batches, hholds, hrecords⟩ := WriterOptions.holds_pack_close hv
    (close_notMem_requests records) (hwritten.symm ▸ hfit)
  exact ⟨_, batches, hholds, hrecords.trans hwritten⟩

theorem recovers_framesOf (hv : options.validate = .ok ())
    (hfit : ∀ record ∈ records, record.Fits options.page)
    (hdue : options.AllDue (blocksOf options records)) :
    (framesOf options records).flatMap (fun frame => frame.recover.records) = records ∧
      ∀ frame ∈ framesOf options records, options.Describes frame := by
  obtain ⟨current, batches, hholds, rfl⟩ := holds_blocksOf hv hfit
  exact WriterOptions.recovers_of_holds hv hfit hholds hdue

/-- Closing closes one more block. -/
theorem length_blocksOf (options : WriterOptions) (records : List FileRecord) :
    (blocksOf options records).length =
      (options.pack Block.sizeLimit (requests records)).closed.length + 1 := by
  have hstill := WriterOptions.isOpen_pack options Block.sizeLimit
    (close_notMem_requests records)
  rw [blocksOf, WriterOptions.pack_append_singleton, Packing.perform, if_pos hstill]
  exact List.length_append

/-- Closing writes the last block, and the sink can be finished then. -/
theorem close_of_settled (hv : options.validate = .ok ()) (hsink : Sink.TakesAll sink)
    (hfit : ∀ record ∈ records, record.Fits options.page)
    (hdue : options.AllDue (blocksOf options records)) {writer : Writer σ}
    (h : (Session.start sink options).writer.settled
      (options.pack Block.sizeLimit (requests records)) = (.ok (), writer)) :
    ∃ inner closed, writer.close = (.ok inner, closed) ∧ Sink.finish closed.sink = .ok inner ∧
      Sink.taken closed.sink = Sink.taken sink ++ Frame.encodeAll (framesOf options records) ∧
      writer.blocksWritten + 1 = (blocksOf options records).length := by
  have hwritten := written_requests_append_close records
  obtain ⟨closed, hclosed, hmore, htaken, _⟩ := Session.settled_of_takesAll hsink hdue
  obtain ⟨before, hbefore, _, _, hcount⟩ := Session.settled_of_takesAll hsink hdue.earlier
  obtain ⟨inner, hfinish⟩ := hmore.exists_finish_eq
  have hsame : before = writer := by
    rw [h] at hbefore
    exact (congrArg Prod.snd hbefore).symm
  subst hsame
  have hfits : ∀ record ∈ written (requests records ++ [.close]), record.Fits options.page :=
    hwritten.symm ▸ hfit
  have hflush : before.flush = (.ok (), closed) :=
    (Session.work_of_fits hv (close_notMem_requests records) hfits h).trans hclosed
  refine ⟨inner, closed, ?_, hfinish, htaken, ?_⟩
  · rw [Writer.close, hflush]
    dsimp only
    rw [hfinish]
  · rw [hcount, length_blocksOf]

/-- Over a sink that takes everything the consumer writes all its records and closes. The totals
count them, and the frames, after those of the records before. -/
theorem consumeFrom_of_settled (progress : Bool) (hv : options.validate = .ok ())
    (hsink : Sink.TakesAll sink) (hfit : ∀ record ∈ earlier ++ later, record.Fits options.page)
    (hdue : options.AllDue (blocksOf options (earlier ++ later))) {writer : Writer σ}
    (h : (Session.start sink options).writer.settled
      (options.pack Block.sizeLimit (requests earlier)) = (.ok (), writer)) (summary : Summary) :
    ∃ inner, (consumeFrom progress summary writer later).result =
        .ok ({ summary with
          records := summary.records + later.length
          bytes := summary.bytes + contentBytes later
          blocks := (blocksOf options (earlier ++ later)).length }, inner) ∧
      Sink.finish (consumeFrom progress summary writer later).writer.sink = .ok inner ∧
      Sink.taken (consumeFrom progress summary writer later).writer.sink = Sink.taken sink ++
        Frame.encodeAll (framesOf options (earlier ++ later)) := by
  -- Each record moves from the later ones to the earlier ones: the packing of all stays the same.
  induction later generalizing earlier writer summary with
  | nil =>
    rw [List.append_nil] at hfit hdue ⊢
    obtain ⟨inner, closed, hclose, hfinish, htaken, hcount⟩ :=
      close_of_settled hv hsink hfit hdue h
    rw [consumeFrom, hclose, hcount]
    exact ⟨inner, rfl, hfinish, htaken⟩
  | cons record later ih =>
    have hsplit : earlier ++ record :: later = (earlier ++ [record]) ++ later := by simp
    have hrequests : requests earlier ++ [.write record] = requests (earlier ++ [record]) := by
      rw [requests, requests, List.map_append]
      rfl
    rw [hsplit] at hfit hdue ⊢
    have hwritten : ∀ other ∈ written (requests earlier ++ [.write record]),
        other.Fits options.page := by
      intro other hmem
      rw [hrequests, written_requests] at hmem
      exact hfit other (List.mem_append_left _ hmem)
    have hnext : options.AllDue
        (options.pack Block.sizeLimit (requests (earlier ++ [record]))).closed := by
      rw [blocksOf, requests, List.map_append, List.append_assoc] at hdue
      exact hdue.earlier
    obtain ⟨next, hsettled, _⟩ := Session.settled_of_takesAll hsink hnext
    have hwrite : writer.write record = (.ok (), next) := by
      have hwork := Session.work_of_fits hv (close_notMem_requests earlier) hwritten h
      rw [hrequests, hsettled] at hwork
      exact hwork
    obtain ⟨inner, hresult, hfinish, htaken⟩ := ih hfit hdue hsettled (count summary record)
    rw [consumeFrom, hwrite]
    refine ⟨inner, ?_, hfinish, htaken⟩
    dsimp only
    rw [hresult]
    simp only [count, contentBytes, List.map_cons, List.sum_cons, List.length_cons]
    rw [Nat.add_assoc, Nat.add_comm 1, Nat.add_assoc]

/-- The sink has taken frames that can be read back as the scanned records, in some order, and the
totals agree with them. -/
structure ReadsBack (before after : σ) (scanned : ScanOutcome) (frames : List Frame)
    (summary : Summary) (inner : ι) : Prop where
  stream : ∃ stream, Sink.taken after = Sink.taken before ++ stream ∧
    Frame.decodeAll? stream = some frames
  finish_eq : Sink.finish after = .ok inner
  contents : (frames.flatMap fun frame => frame.recover.records).Perm scanned.records
  records_eq : summary.records = (frames.flatMap fun frame => frame.recover.records).length
  bytes_eq : summary.bytes = contentBytes (frames.flatMap fun frame => frame.recover.records)
  blocks_eq : summary.blocks = frames.length
  skipped_eq : summary.skipped = scanned.skipped

/-- Scanned records can be read back, in whatever order they were written. -/
theorem readsBack_ofScan (progress : Bool) {writer : Writer σ}
    (hcreate : Writer.create sink options = .ok writer) (hsink : Sink.TakesAll sink)
    {arrived scanned : ScanOutcome} (hperm : arrived.records.Perm scanned.records)
    (hskipped : arrived.skipped = scanned.skipped)
    (hfit : ∀ record ∈ scanned.records, record.Fits options.page)
    (hshort : options.ShortHeaders (blocksOf options arrived.records)) :
    ∃ summary inner frames,
      (ofScan progress writer arrived).result = .ok (summary, inner) ∧
      ReadsBack sink (ofScan progress writer arrived).writer.sink scanned frames summary inner := by
  obtain ⟨hv, rfl⟩ := Session.create_eq_ok hcreate
  have hfits : ∀ record ∈ arrived.records, record.Fits options.page := fun record hmem =>
    hfit record (hperm.subset hmem)
  obtain ⟨current, batches, hholds, _⟩ := holds_blocksOf hv hfits
  have hdue := WriterOptions.allDue_of_holds hv hholds hshort
  have hrecover := (recovers_framesOf hv hfits hdue).1
  have hdecode := Frame.decodeAll?_encodeAll (WriterOptions.wellFormed_of_allDue hdue)
  have hall : ∀ record ∈ [] ++ arrived.records, record.Fits options.page := hfits
  obtain ⟨inner, hresult, hfinish, htaken⟩ := consumeFrom_of_settled progress hv hsink hall hdue
    (Writer.settled_initial (Session.fresh_start sink options)) {}
  let summary : Summary := {
    records := 0 + arrived.records.length
    bytes := 0 + contentBytes arrived.records
    blocks := (blocksOf options arrived.records).length
    skipped := arrived.skipped }
  refine ⟨summary, inner, framesOf options arrived.records, ?_, ?_⟩
  · change (consumeFrom progress {} _ arrived.records).result.map _ = _
    rw [hresult]
    rfl
  · exact {
      stream := ⟨_, htaken, hdecode⟩
      finish_eq := hfinish
      contents := by
        rw [hrecover]
        exact hperm
      records_eq := by
        rw [hrecover]
        exact Nat.zero_add _
      bytes_eq := by
        rw [hrecover]
        exact Nat.zero_add _
      blocks_eq := List.length_map _ |>.symm
      skipped_eq := hskipped }

/-- Over a sink that takes everything a pipeline succeeds, however its steps interleave: there is no
endless run, as long as the caller has not returned some step is possible, and what it returns
agrees with what can be read back from the sink, which is what the scan yields. So does the result
of scanning first and writing then. -/
theorem returns_what_can_be_read_back (decoder : Gzip.MemberDecoder) (tree : FileTree)
    (inputs : List Path) {config : ScanConfig} (hconfig : config.validate = .ok ())
    (progress : Bool) {writer : Writer σ} (hcreate : Writer.create sink options = .ok writer)
    (hsink : Sink.TakesAll sink)
    (hfit : ∀ record ∈ (Scan.run decoder tree inputs).records, record.Fits options.page) :
    let setup : Setup := ⟨decoder, tree, config, progress⟩
    let scanned := Scan.run decoder tree inputs
    let sequential : Consumption σ ι := run decoder tree inputs config progress writer
    (tree.Named → ∃ bound, ∀ events state,
      State.run? setup (initial setup inputs writer) events = some state →
        events.length ≤ bound) ∧
    (∀ events state, State.run? setup (initial setup inputs writer) events = some state →
      (state.returned? = none → state.CanStep setup) ∧
      ∀ returned, state.returned? = some returned →
        options.ShortHeaders (blocksOf options state.scan.outcome.records) →
        ∃ summary inner frames, returned = .ok (summary, inner) ∧
          ReadsBack sink state.consumer.writer.sink scanned frames summary inner ∧
          summary.skipped = state.scan.skipped) ∧
    (options.ShortHeaders (blocksOf options scanned.records) →
      ∃ summary inner frames, sequential.result = .ok (summary, inner) ∧
        ReadsBack sink sequential.writer.sink scanned frames summary inner) := by
  intro setup scanned sequential
  refine ⟨?_, ?_, ?_⟩
  · intro hnamed
    refine ⟨(initial setup inputs writer : State σ ι).cost setup, fun events state hrun => ?_⟩
    have := length_add_cost_le hnamed .start hrun
    omega
  · intro events state hrun
    have hr := reachable_of_run? .start hrun
    refine ⟨canStep_of_running hconfig hr, fun returned hreturned hshort => ?_⟩
    obtain ⟨hdrained, hscan⟩ := ofScan_of_returned hr hreturned
    obtain ⟨hperm, hskipped⟩ := Scan.outcome_of_drained hr.scan hdrained
    obtain ⟨summary, inner, frames, hresult, hread⟩ :=
      readsBack_ofScan progress hcreate hsink hperm hskipped hfit hshort
    rw [hscan] at hresult hread
    exact ⟨summary, inner, frames, hresult, hread, hread.skipped_eq.trans hskipped.symm⟩
  · intro hshort
    have hrun : sequential = ofScan progress writer scanned := by
      change run decoder tree inputs config progress writer = _
      rw [run, hconfig]
    rw [hrun]
    exact readsBack_ofScan progress hcreate hsink (.refl _) rfl hfit hshort

def smallPages : WriterOptions := { pageSize := 4, blockThreshold := 4 }

/-- The consumer writes the record while the caller closes the scan. -/
def handedOverRun : List Event :=
  (handedOverEvents.take 8).map .scan ++ [.write] ++ (handedOverEvents.drop 8).map .scan ++
    [.finish, .join]

theorem returns_what_can_be_read_back_handedOver :
    ∃ writer state summary inner frames,
      Writer.create ({} : Buffer) smallPages = .ok writer ∧
      State.run? handedOver (initial handedOver [[47, 100]] writer) handedOverRun = some state ∧
      state.returned? = some (.ok (summary, inner)) ∧
      ReadsBack ({} : Buffer) state.consumer.writer.sink
        (Scan.run handedOver.decoder handedOver.tree [[47, 100]]) frames summary inner ∧
      ∃ bound, ∀ events after,
        State.run? handedOver (initial handedOver [[47, 100]] writer) events = some after →
          events.length ≤ bound := by
  let writer : Writer Buffer := { sink := {}, options := smallPages }
  have hconfig : handedOver.config.validate = .ok () := by decide
  have hcreate : Writer.create ({} : Buffer) smallPages = .ok writer := by rfl
  have hscan : Scan.run handedOver.decoder handedOver.tree [[47, 100]] =
      ⟨[⟨"/d/a", [1]⟩], 0⟩ := by cbv
  have hfit : ∀ record ∈ (Scan.run handedOver.decoder handedOver.tree [[47, 100]]).records,
      record.Fits smallPages.page := by
    rw [hscan]
    decide
  have hend : (State.run? handedOver (initial handedOver [[47, 100]] writer) handedOverRun).any
      (fun state => state.returned?.isSome &&
        state.scan.outcome.records == [⟨"/d/a", [1]⟩]) = true := by cbv
  obtain ⟨state, hrun, hstate⟩ := (Option.any_eq_true _ _).mp hend
  obtain ⟨hsome, hrecords⟩ := Bool.and_eq_true_iff.mp hstate
  obtain ⟨returned, hreturned⟩ := Option.isSome_iff_exists.mp hsome
  have hshort : smallPages.ShortHeaders (blocksOf smallPages state.scan.outcome.records) := by
    rw [eq_of_beq hrecords]
    decide +kernel
  obtain ⟨hbound, hruns, _⟩ := returns_what_can_be_read_back handedOver.decoder handedOver.tree
    [[47, 100]] hconfig true hcreate (Buffer.takesAll {}) hfit
  obtain ⟨summary, inner, frames, rfl, hread, _⟩ :=
    (hruns handedOverRun state hrun).2 returned hreturned hshort
  exact ⟨writer, state, summary, inner, frames, hcreate, hrun, hreturned, hread,
    hbound (by decide)⟩

end PlaneArchive.Pipeline
