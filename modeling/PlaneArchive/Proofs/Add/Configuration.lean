import PlaneArchive.CommandLine.Command
import PlaneArchive.Proofs.Add.Additions
import PlaneArchive.Proofs.Pipeline.Faithful
import PlaneArchive.Proofs.Writer.Failures

/-! # Unusable configurations

A configuration is refused before the archive file is looked for, so that nothing is created or
emptied under a configuration that could not be used. What passes the checks is never refused
further down: padding does not overflow for records that lie in memory, and every block that comes
about has whole pages.
-/
namespace PlaneArchive

namespace AddOptions

/-- One of the numbers that must not be zero is. -/
def Unusable (options : AddOptions) : Prop :=
  options.scan.expanders = 0 ∨ options.scan.decompressors = 0 ∨ options.writer.pageSize = 0 ∨
    options.writer.blockThreshold = 0 ∨ options.writer.transpose.tileSize = 0 ∨
    options.writer.transpose.workers = 0

instance (options : AddOptions) : Decidable options.Unusable :=
  inferInstanceAs (Decidable (_ ∨ _))

variable {options : AddOptions} {e : ArchiveError}

theorem blames_of_writer_validate (h : options.writer.validate = .error e) :
    ∃ fault, e = .invalidConfig fault := by
  unfold WriterOptions.validate TransposeOptions.validate at h
  repeat' split at h
  all_goals cases h
  all_goals exact ⟨_, rfl⟩

/-- The checks are exhaustive, and all that they find is blamed on the configuration. -/
theorem validate_cases (options : AddOptions) :
    (options.Unusable ∧ ∃ fault, options.validate = .error (.invalidConfig fault)) ∨
      (¬ options.Unusable ∧ options.scan.validate = .ok () ∧ options.writer.validate = .ok ()) := by
  by_cases hscan : options.scan.expanders = 0 ∨ options.scan.decompressors = 0
  · refine .inl ⟨?_, .noScanWorkers, ?_⟩
    · rcases hscan with h | h <;> simp [Unusable, h]
    · simp [validate, ScanConfig.validate, hscan, bind, Except.bind]
  · have hpools : options.scan.validate = .ok () := if_neg hscan
    cases hwriter : options.writer.validate with
    | ok _ =>
      have hnonzero := WriterOptions.validate_eq_ok_iff.mp hwriter
      rw [not_or] at hscan
      refine .inr ⟨?_, hpools, rfl⟩
      simp [Unusable, hscan, hnonzero]
    | error e =>
      obtain ⟨fault, rfl⟩ := blames_of_writer_validate hwriter
      refine .inl ⟨?_, fault, ?_⟩
      · by_contra husable
        simp only [Unusable, not_or] at husable
        obtain ⟨-, -, hnonzero⟩ := husable
        rw [WriterOptions.validate_eq_ok_iff.mpr hnonzero] at hwriter
        cases hwriter
      · simp [validate, hpools, hwriter, bind, Except.bind]

end AddOptions

/-- A run whose options do not pass the checks leaves the file tree alone, whatever it holds. -/
theorem runAdd_of_validate_error {options : AddOptions} {e : ArchiveError}
    (h : options.validate = .error e) (compressor : Compressor) (decoder : Gzip.MemberDecoder)
    (tree : FileTree) (archive : Path) (inputs : List Path) :
    runAdd compressor decoder tree archive inputs options = ⟨.error e, [], tree⟩ := by
  cases hscan : options.scan.validate with
  | error fault =>
    simp only [AddOptions.validate, hscan, bind, Except.bind] at h
    cases h
    simp only [runAdd, hscan, bind, Except.bind]
  | ok _ =>
    simp only [AddOptions.validate, hscan, bind, Except.bind] at h
    simp only [runAdd, openArchive, hscan, h, bind, Except.bind]

namespace Session

variable {σ ι : Type} [Sink σ ι] {sink : σ} {session : Session σ} {options : WriterOptions}
  {limit : ℕ} {requests : List Request} {request : Request} {e : ArchiveError}

theorem Fails.not_config (h : session.Fails request e) (fault : ConfigFault) :
    e ≠ .invalidConfig fault := by
  cases h with
  | poisoned _ => simp
  | tooLarge _ _ _ => simp
  | unwritten _ hunwritten => cases hunwritten <;> simp

/-- No request to a writer with valid options fails because of its configuration. -/
theorem not_config_of_perform (hv : options.validate = .ok ()) (hlimit : limit ≤ Block.sizeLimit)
    (hopen : Request.close ∉ requests)
    (hlen : ∀ record ∈ written (requests ++ [request]), record.content.length < 2 ^ 63)
    (h : (((startWithin sink options limit).after requests).perform request).1.error? = some e)
    (fault : ConfigFault) : e ≠ .invalidConfig fault := by
  let session := (startWithin sink options limit).after requests
  rw [written_append] at hlen
  have hword : ∀ record ∈ written requests, record.content.length < UInt64.size := by
    intro record hmem
    exact (hlen record (List.mem_append_left _ hmem)).trans (by decide)
  have hlast : ∀ record ∈ written [request], record.content.length < 2 ^ 63 :=
    fun record hmem => hlen record (List.mem_append_right _ hmem)
  have hsame : session.writer.options = options ∧ session.writer.payloadLimit = limit :=
    writer_keeps sink hlimit requests
  obtain ⟨hoptions, hwithin⟩ := hsame
  obtain ⟨held, hkeeps, hblock⟩ := exists_keeps_block sink hv hlimit hopen hword
  have hframes : Writer.HaveFrames session.writer.options (session.writer.options.cutOf
      session.writer.payloadLimit session.writer.block request).closed := by
    rw [hoptions, hwithin, hblock]
    exact WriterOptions.haveFrames_cutOf hv hlimit hkeeps
      fun record hmem => (hlast record hmem).trans (by decide)
  have hfails : session.Fails request e :=
    fails_of_perform (hoptions ▸ hv) (isOpen_after sink hlimit hopen) (hwithin ▸ hlimit) hlast
      hframes h
  exact hfails.not_config fault

end Session

namespace Pipeline

variable {σ ι : Type} [Sink σ ι] {sink : σ} {writer between last : Writer σ}
  {options : WriterOptions} {progress : Bool} {records received : List FileRecord}
  {consumption : Consumption σ ι} {consumer : Consumer σ ι} {e : ArchiveError}

theorem Writes.after_eq (h : Writes writer records between) :
    Session.after { writer } (requests records) = { writer := between } := by
  induction h with
  | done writer => rfl
  | @next writer between _ record records hwrite _ ih =>
    have hfirst : (Session.perform { writer } (.write record)).2 = { writer := between } := by
      simp only [Session.perform, hwrite, if_true]
    have hsplit : Session.after { writer } (requests (record :: records)) =
        Session.after (Session.perform { writer } (.write record)).2 (requests records) := rfl
    rw [hsplit, hfirst, ih]

/-- A writer that has been driven by hand is one that a session has driven. -/
theorem Writes.not_config (hcreate : Writer.create sink options = .ok writer)
    (h : Writes writer records between) (request : Request)
    (hlen : ∀ record ∈ records ++ written [request], record.content.length < 2 ^ 63)
    (he : (Session.perform { writer := between } request).1.error? = some e)
    (fault : ConfigFault) : e ≠ .invalidConfig fault := by
  obtain ⟨hv, rfl⟩ := Session.create_eq_ok hcreate
  rw [← h.after_eq] at he
  refine Session.not_config_of_perform hv le_rfl (close_notMem_requests records) ?_ he fault
  rwa [written_append, written_requests]

theorem not_config_of_write (hcreate : Writer.create sink options = .ok writer)
    (h : Writes writer records between) {failing : FileRecord}
    (hlen : ∀ record ∈ records ++ [failing], record.content.length < 2 ^ 63)
    (hfail : between.write failing = (.error e, last)) (fault : ConfigFault) :
    e ≠ .invalidConfig fault := by
  refine h.not_config hcreate (.write failing) hlen ?_ fault
  simp [Session.perform, hfail, Answer.error?]

theorem not_config_of_close (hcreate : Writer.create sink options = .ok writer)
    (h : Writes writer records between)
    (hlen : ∀ record ∈ records, record.content.length < 2 ^ 63)
    (hfail : between.close = (.error e, last)) (fault : ConfigFault) :
    e ≠ .invalidConfig fault := by
  refine h.not_config hcreate .close (by simpa [written, Request.record?]) ?_ fault
  simp [Session.perform, hfail, Answer.error?]

/-- However a writer is driven, what goes wrong is not blamed on its configuration. -/
theorem Direct.not_config (hcreate : Writer.create sink options = .ok writer)
    (hlen : ∀ record ∈ records, record.content.length < 2 ^ 63)
    (h : Direct progress writer records consumption) (he : consumption.result = .error e)
    (fault : ConfigFault) : e ≠ .invalidConfig fault := by
  cases h with
  | @failed before after failing _ _ _ hsplit hbefore hfail =>
    cases he
    refine not_config_of_write hcreate hbefore ?_ hfail fault
    intro record hmem
    apply hlen
    rw [hsplit]
    rcases List.mem_append.mp hmem with hearlier | hlast
    · exact List.mem_append_left _ hearlier
    · rw [List.mem_singleton.mp hlast]
      exact List.mem_append_right _ List.mem_cons_self
  | unclosed hall hclose =>
    cases he
    exact not_config_of_close hcreate hall hlen hclose fault
  | closed _ _ => cases he

/-- The failure that a consumer will report, or has reported. -/
def Stage.failure? : Stage ι → Option ArchiveError
  | .draining e | .finished (.error e) => some e
  | .receiving | .writing _ | .finished (.ok _) => none

theorem Attended.not_config (hcreate : Writer.create sink options = .ok writer)
    (hlen : ∀ record ∈ received, record.content.length < 2 ^ 63)
    (h : Attended progress writer received consumer) (he : consumer.stage.failure? = some e)
    (fault : ConfigFault) : e ≠ .invalidConfig fault := by
  cases h with
  | receiving _ => simp [Stage.failure?] at he
  | writing _ _ => simp [Stage.failure?] at he
  | draining hsplit hbefore hfail =>
    cases he
    have hdirect : Direct progress writer received _ := .failed hsplit hbefore hfail
    exact hdirect.not_config hcreate hlen rfl fault
  | @finished consumption _ hdirect =>
    cases hresult : consumption.result with
    | error failure =>
      simp only [Stage.failure?, hresult, Option.some.injEq] at he
      exact hdirect.not_config hcreate hlen (he ▸ hresult) fault
    | ok reported => simp [Stage.failure?, hresult] at he

theorem not_config_of_ofScan {arrived : ScanOutcome}
    (hcreate : Writer.create sink options = .ok writer)
    (hlen : ∀ record ∈ arrived.records, record.content.length < 2 ^ 63)
    (he : (ofScan progress writer arrived).result = .error e) (fault : ConfigFault) :
    e ≠ .invalidConfig fault := by
  have hdirect := direct_consume progress writer arrived.records
  rw [ofScan] at he
  cases hresult : (consume progress writer arrived.records).result with
  | error failure =>
    simp only [hresult, Except.map, Except.error.injEq] at he
    exact hdirect.not_config hcreate hlen (he ▸ hresult) fault
  | ok reported => simp [hresult, Except.map] at he

/-- At no moment of a run side by side with its scan does the consumer blame the configuration, nor
does the caller in the end. -/
theorem not_config_of_reachable {setup : Setup} {inputs : List Path} {state : State σ ι}
    (hcreate : Writer.create sink options = .ok writer) (h : Reachable setup inputs writer state)
    (hlen : ∀ record ∈ state.scan.received.map (·.2), record.content.length < 2 ^ 63)
    (fault : ConfigFault) :
    state.consumer.stage.failure? ≠ some (.invalidConfig fault) ∧
      state.returned? ≠ some (.error (.invalidConfig fault)) := by
  constructor
  · intro hstage
    exact (attended_of_reachable h).not_config hcreate hlen hstage fault rfl
  · intro hreturned
    have hresult := congrArg Consumption.result (ofScan_of_returned h hreturned).2
    exact not_config_of_ofScan hcreate hlen hresult fault rfl

end Pipeline

variable {compressor : Compressor} {decoder : Gzip.MemberDecoder} {tree : FileTree}
  {archive : Path} {inputs : List Path} {options : AddOptions} {e : ArchiveError}

theorem io_of_openArchive_error (hv : options.writer.validate = .ok ())
    (h : openArchive compressor tree archive options = .error e) :
    ∃ cause, e = .io archive cause := by
  cases hplace : tree.openForWriting (options.mode = .append) archive with
  | error cause =>
    simp only [openArchive, hv, hplace, bind, Except.bind] at h
    cases h
    exact ⟨cause, rfl⟩
  | ok found =>
    simp only [openArchive, hv, hplace, Writer.create, bind, Except.bind] at h
    cases h

/-- The records that a run scans once the archive file has been opened lie in memory, where nothing
takes more than half of the 64-bit addresses. -/
def RecordsInMemory (decoder : Gzip.MemberDecoder) (tree : FileTree) (archive : Path)
    (inputs : List Path) (mode : OpenMode) : Prop :=
  ∀ opened location, tree.openForWriting (mode = .append) archive = .ok (opened, location) →
    ∀ record ∈ (Scan.run decoder opened inputs).records, record.content.length < 2 ^ 63

theorem not_config_of_runAdd (hscan : options.scan.validate = .ok ())
    (hwriter : options.writer.validate = .ok ())
    (hmemory : RecordsInMemory decoder tree archive inputs options.mode)
    (h : (runAdd compressor decoder tree archive inputs options).result = .error e)
    (fault : ConfigFault) : e ≠ .invalidConfig fault := by
  cases hopen : openArchive compressor tree archive options with
  | error failure =>
    obtain ⟨cause, rfl⟩ := io_of_openArchive_error hwriter hopen
    simp only [runAdd, hscan, hopen, bind, Except.bind] at h
    cases h
    simp
  | ok found =>
    obtain ⟨opened, location, writer⟩ := found
    obtain ⟨hplace, hcreate⟩ := openArchive_eq_ok hopen
    have hrun : Pipeline.run decoder opened inputs options.scan options.progress writer =
        Pipeline.ofScan options.progress writer (Scan.run decoder opened inputs) := by
      simp only [Pipeline.run, hscan]
    cases hresult : (Pipeline.ofScan options.progress writer
        (Scan.run decoder opened inputs)).result with
    | error failure =>
      simp only [runAdd, hscan, hopen, hrun, hresult, bind, Except.bind] at h
      cases h
      exact Pipeline.not_config_of_ofScan hcreate (hmemory opened location hplace) hresult fault
    | ok reported =>
      simp only [runAdd, hscan, hopen, hrun, hresult, bind, Except.bind] at h
      cases h

namespace CommandLine.AddCommand

theorem mebibytes_eq_zero_iff (count : UInt64) : mebibytes count = 0 ↔ count = 0 := by
  rw [mebibytes, Nat.min_eq_zero_iff, Nat.mul_eq_zero, ← UInt64.toNat_inj]
  simp

/-- The number of transposing workers can not be given as zero on a command line. -/
theorem unusable_options_iff (command : AddCommand) {processors : ℕ}
    (hprocessors : 0 < processors) :
    (command.options processors).Unusable ↔
      command.scanWorkers = 0 ∨ command.gunzipWorkers = 0 ∨ command.structSize = 0 ∨
        command.blockSizeMib = 0 ∨ command.tileSize = 0 := by
  have hworkers : (command.options processors).writer.transpose.workers ≠ 0 := by
    simp only [options]
    split
    · omega
    · next hgiven => simpa [← UInt64.toNat_inj] using hgiven
  simp only [AddOptions.Unusable, hworkers, or_false]
  simp only [options, mebibytes_eq_zero_iff, ← UInt64.toNat_inj, UInt64.toNat_zero]

end CommandLine.AddCommand

/-- A run blames its configuration exactly if a number in it is zero that must not be. It does so
before it looks at the file tree, and leaves it alone. Under any other configuration neither the
opening of the archive file nor any moment of scanning and writing side by side does so. A command
line asks for such a configuration exactly if it gives one of five numbers as zero. -/
theorem refuses_unusable_options (compressor : Compressor) (decoder : Gzip.MemberDecoder)
    (tree : FileTree) (archive : Path) (inputs : List Path) (options : AddOptions) :
    (options.Unusable → ∃ fault, options.validate = .error (.invalidConfig fault) ∧
      ∀ (other : FileTree) (archive : Path) (inputs : List Path),
        runAdd compressor decoder other archive inputs options =
          ⟨.error (.invalidConfig fault), [], other⟩) ∧
    (RecordsInMemory decoder tree archive inputs options.mode →
      ((∃ fault, (runAdd compressor decoder tree archive inputs options).result =
        .error (.invalidConfig fault)) ↔ options.Unusable)) ∧
    (¬ options.Unusable → ∀ fault,
      options.validate ≠ .error (.invalidConfig fault) ∧
      openArchive compressor tree archive options ≠ .error (.invalidConfig fault) ∧
      ∀ opened location writer,
        openArchive compressor tree archive options = .ok (opened, location, writer) →
        ∀ state : Pipeline.State (CompressedFile compressor) BufferedFile,
          Pipeline.Reachable ⟨decoder, opened, options.scan, options.progress⟩ inputs writer state →
          (∀ record ∈ state.scan.received.map (·.2), record.content.length < 2 ^ 63) →
            state.consumer.stage.failure? ≠ some (.invalidConfig fault) ∧
            state.returned? ≠ some (.error (.invalidConfig fault))) ∧
    ∀ (command : CommandLine.AddCommand) (processors : ℕ), 0 < processors →
      options = command.options processors →
        (options.Unusable ↔ command.scanWorkers = 0 ∨ command.gunzipWorkers = 0 ∨
          command.structSize = 0 ∨ command.blockSizeMib = 0 ∨ command.tileSize = 0) := by
  have hrefused : options.Unusable → ∃ fault, options.validate = .error (.invalidConfig fault) ∧
      ∀ (other : FileTree) (archive : Path) (inputs : List Path),
        runAdd compressor decoder other archive inputs options =
          ⟨.error (.invalidConfig fault), [], other⟩ := by
    intro hunusable
    rcases options.validate_cases with ⟨-, fault, hfault⟩ | ⟨husable, -, -⟩
    · refine ⟨fault, hfault, ?_⟩
      intro other archive inputs
      exact runAdd_of_validate_error hfault compressor decoder other archive inputs
    · exact absurd hunusable husable
  refine ⟨hrefused, ?_, ?_, ?_⟩
  · intro hmemory
    constructor
    · rintro ⟨fault, hresult⟩
      by_contra husable
      rcases options.validate_cases with ⟨hunusable, -⟩ | ⟨-, hscan, hwriter⟩
      · exact husable hunusable
      · exact not_config_of_runAdd hscan hwriter hmemory hresult fault rfl
    · intro hunusable
      obtain ⟨fault, -, hrun⟩ := hrefused hunusable
      exact ⟨fault, by rw [hrun]⟩
  · intro husable fault
    rcases options.validate_cases with ⟨hunusable, -⟩ | ⟨-, hscan, hwriter⟩
    · exact absurd hunusable husable
    · refine ⟨?_, ?_, ?_⟩
      · simp [AddOptions.validate, hscan, hwriter, bind, Except.bind]
      · intro hopen
        obtain ⟨cause, hcause⟩ := io_of_openArchive_error hwriter hopen
        cases hcause
      · intro opened location writer hopen state hreach hlen
        have hcreate := (openArchive_eq_ok hopen).2
        exact Pipeline.not_config_of_reachable hcreate hreach hlen fault
  · rintro command processors hprocessors rfl
    exact command.unusable_options_iff hprocessors

section Refusing

/-- A command without a number of transposing workers, and with more mebibytes than 64 bits hold. -/
def hugeBlocks : CommandLine.AddCommand where
  archive := [47, 100, 47, 97]
  inputs := [[47, 100]]
  structSize := 4
  blockSizeMib := 2 ^ 63

/-- With tiles of no size nothing happens to the file that would be emptied; with tiles of some size
it is emptied, and the huge block is no reason to refuse the run. -/
theorem refuses_unusable_options_hugeBlocks :
    let refused := ({ hugeBlocks with tileSize := 0 } : CommandLine.AddCommand).options 2
    let accepted := hugeBlocks.options 2
    runAdd Zstandard.compressor Gzip.member folder hugeBlocks.archive hugeBlocks.inputs refused =
      ⟨.error (.invalidConfig .zeroTileSize), [], folder⟩ ∧
    folder.look hugeBlocks.archive = .ok (.file [1, 2, 3]) ∧
    ¬ accepted.Unusable ∧
    ∀ fault, (runAdd Zstandard.compressor Gzip.member folder hugeBlocks.archive hugeBlocks.inputs
      accepted).result ≠ .error (.invalidConfig fault) := by
  intro refused accepted
  have hrefused := refuses_unusable_options Zstandard.compressor Gzip.member folder
    hugeBlocks.archive hugeBlocks.inputs refused
  have haccepted := refuses_unusable_options Zstandard.compressor Gzip.member folder
    hugeBlocks.archive hugeBlocks.inputs accepted
  have husable : ¬ accepted.Unusable := by
    rw [haccepted.2.2.2 hugeBlocks 2 (by decide) rfl]
    decide +kernel
  have hopening : folder.openForWriting (accepted.mode = .append) hugeBlocks.archive =
      .ok (folder.put [[97], [100]] (.file []), [[97], [100]]) := by cbv
  have hscanned : (Scan.run Gzip.member (folder.put [[97], [100]] (.file []))
      hugeBlocks.inputs).records = [⟨"/d/a", []⟩] := by cbv
  have hmemory : RecordsInMemory Gzip.member folder hugeBlocks.archive hugeBlocks.inputs
      accepted.mode := by
    intro opened location hopen
    rw [hopening] at hopen
    cases hopen
    rw [hscanned]
    decide
  refine ⟨?_, by cbv, husable, ?_⟩
  · obtain ⟨fault, hfault, hrun⟩ := hrefused.1 (by decide +kernel)
    have htile : refused.validate = .error (.invalidConfig .zeroTileSize) := by decide +kernel
    rw [htile] at hfault
    cases hfault
    exact hrun folder hugeBlocks.archive hugeBlocks.inputs
  · intro fault hresult
    exact husable ((haccepted.2.1 hmemory).mp ⟨fault, hresult⟩)

end Refusing

end PlaneArchive
