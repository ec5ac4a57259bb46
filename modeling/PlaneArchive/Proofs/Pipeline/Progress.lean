import PlaneArchive.Proofs.Pipeline.Moves
import PlaneArchive.Sink.Buffer

/-! # The pipeline cannot deadlock

A consumer that is not writing takes whatever is handed over, also after a failure, so it never
keeps the scan from its end; and it finishes as soon as the scan has no more for it.
-/
namespace PlaneArchive.Pipeline

variable {σ ι : Type} [Sink σ ι]

def State.CanStep (setup : Setup) (state : State σ ι) : Prop :=
  ∃ event after, state.next? setup event = some after

/-- Neither writing nor finished. -/
def Consumer.Attentive (consumer : Consumer σ ι) : Prop :=
  consumer.stage = .receiving ∨ ∃ e, consumer.stage = .draining e

variable {setup : Setup} {inputs : List Path} {writer : Writer σ} {state : State σ ι}

omit [Sink σ ι] in
theorem exists_accept? {consumer : Consumer σ ι} (h : consumer.Attentive) (record : FileRecord) :
    ∃ next, consumer.accept? record = some next := by
  rcases h with hs | ⟨e, hs⟩
  · exact ⟨_, by rw [Consumer.accept?, hs]⟩
  · exact ⟨_, by rw [Consumer.accept?, hs]⟩

theorem exists_finish? {consumer : Consumer σ ι} (h : consumer.Attentive) :
    ∃ next, consumer.finish? = some next := by
  rcases h with hs | ⟨e, hs⟩
  · exact ⟨_, by rw [Consumer.finish?, hs]⟩
  · exact ⟨_, by rw [Consumer.finish?, hs]⟩

/-- Whatever the scan can do happens, as long as the consumer takes what it hands over. -/
theorem canStep_of_scan (hscan : state.scan.CanStep setup.scan)
    (ha : state.consumer.Attentive ∨ state.streamEnded = true) : state.CanStep setup := by
  obtain ⟨event, scan, hnext⟩ := hscan
  have hbind : state.next? setup (.scan event) = state.follow? scan := by
    rw [State.next?, hnext]
    rfl
  have hsame : scan.received = state.scan.received → state.CanStep setup := fun hr =>
    ⟨.scan event, _, hbind.trans (follow?_of_same hr)⟩
  rcases ha with ha | he
  · rcases (Scan.move_of_next? hnext).received with hr | ⟨receiver, record, hr⟩
    · exact hsame hr
    · obtain ⟨consumer, haccept⟩ := exists_accept? ha record
      refine ⟨.scan event, { state with scan, consumer }, hbind.trans ?_⟩
      rw [follow?_of_received hr, haccept]
      rfl
  · exact hsame (received_of_streamEnded he hnext).1

theorem canStep_of_attentive (hc : setup.config.validate = .ok ())
    (hr : Reachable setup inputs writer state) (ha : state.consumer.Attentive) :
    state.CanStep setup := by
  by_cases ho : state.scan.owner = .closed
  · have hshutdown := (Scan.reachable_invariant hr.scan).shutdown
    cases houtput : state.scan.output with
    | nil =>
      obtain ⟨consumer, hfinish⟩ := exists_finish? ha
      have hended : state.streamEnded = true := streamEnded_iff.mpr
        ⟨hshutdown.expanders_gone (Or.inr ho), hshutdown.decompressors_gone ho, houtput⟩
      refine ⟨.finish, { state with consumer }, ?_⟩
      rw [State.next?, if_pos hended, hfinish]
      rfl
    | cons record output =>
      refine canStep_of_scan ⟨.receive 0, { state.scan with
        output, received := state.scan.received ++ [(0, record)] }, ?_⟩ (Or.inl ha)
      rw [Scan.State.next?, Scan.State.receive?, houtput]
      exact if_pos Nat.one_pos
  · have hscan : state.scan.CanStep setup.scan :=
      Scan.canStep_of_open hc (Or.inr Nat.one_pos) hr.scan ho
    exact canStep_of_scan hscan (Or.inl ha)

/-- Until the caller has returned someone can go on. -/
theorem canStep_of_running (hc : setup.config.validate = .ok ())
    (hr : Reachable setup inputs writer state) (hrunning : state.returned? = none) :
    state.CanStep setup := by
  cases hs : state.consumer.stage with
  | receiving => exact canStep_of_attentive hc hr (Or.inl hs)
  | draining e => exact canStep_of_attentive hc hr (Or.inr ⟨e, hs⟩)
  | writing record =>
    obtain ⟨consumer, hwrite⟩ : ∃ next, state.consumer.write? setup.progress = some next :=
      ⟨_, by rw [Consumer.write?, hs]⟩
    refine ⟨.write, { state with consumer }, ?_⟩
    rw [State.next?, hwrite]
    rfl
  | finished result =>
    by_cases ho : state.scan.owner = .closed
    · obtain ⟨after, hjoin⟩ : ∃ after, state.join? = some after :=
        ⟨_, by rw [State.join?, hrunning, ho, hs]⟩
      exact ⟨.join, after, hjoin⟩
    · have hscan : state.scan.CanStep setup.scan :=
        Scan.canStep_of_open hc (Or.inr Nat.one_pos) hr.scan ho
      exact canStep_of_scan hscan (Or.inr (streamEnded_of_finished hr hs))

/-- Until closing has returned, some step of a scan is possible, whoever receives its output, if it
is received or has no limit; and closing leaves nothing behind. Until the caller has returned, some
step of a pipeline is possible, whatever happens to its sink. -/
theorem goes_on_until_returned (decoder : Gzip.MemberDecoder) (tree : FileTree)
    {config : ScanConfig} (hc : config.validate = .ok ()) (inputs : List Path)
    (writer : Writer σ) :
    (∀ consumers state, Scan.Reachable ⟨decoder, tree, config, consumers⟩ inputs state →
      (config.outputCapacity? = none ∨ 0 < consumers → state.isClosed = false →
        state.CanStep ⟨decoder, tree, config, consumers⟩) ∧
      (state.isClosed = true → Scan.CleanlyClosed ⟨decoder, tree, config, consumers⟩ state)) ∧
    ∀ progress state, Reachable ⟨decoder, tree, config, progress⟩ inputs writer state →
      (state.returned? = none → state.CanStep ⟨decoder, tree, config, progress⟩) ∧
      (state.returned?.isSome = true →
        Scan.CleanlyClosed ⟨decoder, tree, config, 1⟩ state.scan ∧ state.scan.output = []) := by
  constructor
  · intro consumers state hr
    constructor
    · intro hout hopen
      have ho : state.owner ≠ .closed := fun ho =>
        Bool.false_ne_true (hopen.symm.trans (Scan.isClosed_iff.mpr ho))
      exact Scan.canStep_of_open hc hout hr ho
    · intro hclosed
      exact Scan.cleanlyClosed_of_closed hr (Scan.isClosed_iff.mp hclosed)
  · intro progress state hr
    constructor
    · exact canStep_of_running hc hr
    · intro hreturned
      obtain ⟨returned, hsome⟩ := Option.isSome_iff_exists.mp hreturned
      obtain ⟨ho, result, hs, _⟩ := closed_of_returned hr hsome
      exact ⟨Scan.cleanlyClosed_of_closed hr.scan ho,
        (streamEnded_iff.mp (streamEnded_of_finished hr hs)).2.2⟩

/-- The directory `/d` with the file `a`, and a direct hand-over to one consumer. -/
def handedOver : Setup where
  decoder := Gzip.member
  tree := { nodes := [([[100]], .directory), ([[97], [100]], .file [1])] }
  config := { expanders := 1, decompressors := 1, outputCapacity? := some 0 }
  progress := true

/-- The caller starts to close as soon as the only record has been handed over. -/
def handedOverEvents : List Scan.Event :=
  [.own, .own, .take 0, .act (.expander 0), .act (.expander 0), .act (.expander 0), .take 0,
    .handOver (.expander 0) 0, .act (.expander 0), .own, .own, .own, .own, .take 0, .own, .leave 0,
    .own]

theorem goes_on_until_returned_handedOver :
    handedOver.config.validate = .ok () ∧
      (Scan.initial handedOver.scan [[47, 100]]).CanStep handedOver.scan ∧
      (∃ state, Scan.Reachable handedOver.scan [[47, 100]] state ∧ state.isClosed = true ∧
        Scan.CleanlyClosed handedOver.scan state) ∧
      (initial handedOver [[47, 100]] ({ sink := {}, options := {} } : Writer Buffer)).CanStep
        handedOver := by
  have hvalid : handedOver.config.validate = .ok () := by decide
  obtain ⟨hscan, hpipeline⟩ := goes_on_until_returned handedOver.decoder handedOver.tree hvalid
    [[47, 100]] ({ sink := {}, options := {} } : Writer Buffer)
  have hclosed : (Scan.State.run? handedOver.scan (Scan.initial handedOver.scan [[47, 100]])
      handedOverEvents).any Scan.State.isClosed = true := by cbv
  obtain ⟨state, hrun, hstate⟩ := (Option.any_eq_true _ _).mp hclosed
  have hr := Scan.reachable_of_run? .start hrun
  refine ⟨hvalid, ?_, ⟨state, hr, hstate, (hscan 1 state hr).2 hstate⟩, ?_⟩
  · exact (hscan 1 _ .start).1 (Or.inr Nat.one_pos) rfl
  · exact (hpipeline true _ .start).1 rfl

end PlaneArchive.Pipeline
