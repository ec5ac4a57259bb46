import PlaneArchive.Add
import PlaneArchive.Gzip.Member
import PlaneArchive.Zstandard.Stored
import PlaneArchive.Proofs.FileTree.Resolution
import PlaneArchive.Proofs.Pipeline.Success
import PlaneArchive.Proofs.Sink.File

/-! # Several runs share an archive file

Every run that adds to an archive file ends its own compressed stream, and every frame describes
itself. So the file holds the streams of the last run that emptied it and of all runs since, and
they are read back whatever the options of each run were.
-/
namespace PlaneArchive

/-- A run that has added to an archive file. -/
structure Addition where
  inputs : List Path
  options : AddOptions
  /-- The records of the scan, in the order in which they were written. -/
  records : List FileRecord
  /-- What was written, before it was compressed. -/
  runs : List Bytes

namespace Addition

def stream (addition : Addition) : Bytes := addition.runs.flatten

def frames (addition : Addition) : List Frame := (Frame.decodeAll? addition.stream).getD []

/-- What the file has got of it. -/
def part (compressor : Compressor) (addition : Addition) : Bytes :=
  compressor.compress addition.options.writer.compressionLevel addition.runs

/-- The stream of a run can be read back without the options of the run. -/
structure ReadsBack (addition : Addition) : Prop where
  stream_eq : addition.stream = Frame.encodeAll addition.frames
  wellFormed : ∀ frame ∈ addition.frames, frame.WellFormed
  describes : ∀ frame ∈ addition.frames, addition.options.writer.Describes frame
  records_eq : addition.frames.flatMap (fun frame => frame.recover.records) = addition.records

theorem readsBack_of_wrote {compressor : Compressor} {addition : Addition} {frames : List Frame}
    {level : Int32} {file : OpenFile} {after : CompressedFile compressor}
    (h : Pipeline.Wrote addition.options.writer (.start level file) after addition.records frames)
    (hruns : addition.runs = after.buffer.runs.reverse) : addition.ReadsBack := by
  have hstream : addition.stream = Frame.encodeAll frames := by
    rw [stream, hruns]
    exact h.taken_eq
  have hframes : addition.frames = frames := by
    rw [Addition.frames, hstream, Frame.decodeAll?_encodeAll h.wellFormed]
    rfl
  rw [← hframes] at h hstream
  exact {
    stream_eq := hstream
    wellFormed := h.wellFormed
    describes := h.describes
    records_eq := h.records_eq }

end Addition

/-- A run succeeds, and adds what it has written to the archive file. -/
inductive Adds (compressor : Compressor) (decoder : Gzip.MemberDecoder) (archive : Path) :
    FileTree → Addition → FileTree → Prop
  | success {inputs : List Path} {options : AddOptions} {before opened : FileTree}
      {location : Location} {writer : Writer (CompressedFile compressor)}
      {records : List FileRecord}
      {consumption : Consumption (CompressedFile compressor) BufferedFile}
      {summary : Summary} {file : BufferedFile} (hscan : options.scan.validate = .ok ())
      (hopen : openArchive compressor before archive options = .ok (opened, location, writer))
      (hends : Pipeline.Ends ⟨decoder, opened, options.scan, options.progress⟩ inputs writer records
        consumption)
      (hok : consumption.result = .ok (summary, file)) :
      Adds compressor decoder archive before
        ⟨inputs, options, records, consumption.writer.sink.buffer.runs.reverse⟩
        (opened.put location (.file file.close))

/-- Runs one after another, between which anything may change but the archive file. -/
inductive Additions (compressor : Compressor) (decoder : Gzip.MemberDecoder) (archive : Path)
    (start : FileTree) : List Addition → FileTree → Prop
  | start : Additions compressor decoder archive start [] start
  | add {additions : List Addition} {addition : Addition} {before after : FileTree}
      (earlier : Additions compressor decoder archive start additions before)
      (h : Adds compressor decoder archive before addition after) :
      Additions compressor decoder archive start (additions ++ [addition]) after
  | elsewhere {additions : List Addition} {before after : FileTree}
      (earlier : Additions compressor decoder archive start additions before)
      (h : after.content? archive = before.content? archive) :
      Additions compressor decoder archive start additions after

/-- A call of `runAdd`, with what the scan of its inputs yields. -/
structure AddCall where
  inputs : List Path
  options : AddOptions
  records : List FileRecord

def Addition.call (addition : Addition) : AddCall :=
  ⟨addition.inputs, addition.options, addition.records⟩

/-- Calls of `runAdd` one after another, all of which succeed. Between them anything may change but
the archive file. -/
inductive Calls (compressor : Compressor) (decoder : Gzip.MemberDecoder) (archive : Path)
    (start : FileTree) : List AddCall → FileTree → Prop
  | start : Calls compressor decoder archive start [] start
  | run {calls : List AddCall} {call : AddCall} {before : FileTree} {summary : Summary}
      (earlier : Calls compressor decoder archive start calls before)
      (hrecords : (before.openForWriting (call.options.mode = .append) archive).map (fun opened =>
        (Scan.run decoder opened.1 call.inputs).records) = .ok call.records)
      (hok : (runAdd compressor decoder before archive call.inputs call.options).result =
        .ok summary) :
      Calls compressor decoder archive start (calls ++ [call])
        (runAdd compressor decoder before archive call.inputs call.options).tree
  | elsewhere {calls : List AddCall} {before after : FileTree}
      (earlier : Calls compressor decoder archive start calls before)
      (h : after.content? archive = before.content? archive) :
      Calls compressor decoder archive start calls after

variable {compressor : Compressor} {decoder : Gzip.MemberDecoder} {archive : Path}
  {start before after tree opened : FileTree} {location : Location} {addition : Addition}
  {additions earlier later : List Addition} {options : AddOptions}
  {writer : Writer (CompressedFile compressor)}

theorem openArchive_eq_ok
    (h : openArchive compressor tree archive options = .ok (opened, location, writer)) :
    tree.openForWriting (options.mode = .append) archive = .ok (opened, location) ∧
      Writer.create (.start options.writer.compressionLevel
        (opened.archiveFile location options.mode)) options.writer = .ok writer := by
  rw [openArchive] at h
  cases hv : options.writer.validate with
  | error e =>
    rw [hv] at h
    cases h
  | ok _ =>
    cases hplace : tree.openForWriting (options.mode = .append) archive with
    | error e =>
      rw [hv, hplace] at h
      cases h
    | ok found =>
      rw [hv, hplace] at h
      dsimp only [bind, Except.bind] at h
      let sink : CompressedFile compressor :=
        .start options.writer.compressionLevel (found.1.archiveFile found.2 options.mode)
      change (Writer.create sink options.writer).bind _ = _ at h
      cases hcreate : Writer.create sink options.writer with
      | error e =>
        rw [hcreate] at h
        cases h
      | ok made =>
        rw [hcreate] at h
        cases h
        exact ⟨rfl, hcreate⟩

/-- Every run that succeeds adds what it has scanned to the archive file. -/
theorem adds_of_runAdd {inputs : List Path} {summary : Summary}
    (h : (runAdd compressor decoder before archive inputs options).result = .ok summary) :
    ∃ addition, addition.inputs = inputs ∧ addition.options = options ∧
      (before.openForWriting (options.mode = .append) archive).map (fun opened =>
        (Scan.run decoder opened.1 inputs).records) = .ok addition.records ∧
      Adds compressor decoder archive before addition
        (runAdd compressor decoder before archive inputs options).tree := by
  cases hscan : options.scan.validate with
  | error e =>
    simp only [runAdd, hscan, bind, Except.bind] at h
    cases h
  | ok _ =>
    cases hopen : openArchive compressor before archive options with
    | error e =>
      simp only [runAdd, hscan, hopen, bind, Except.bind] at h
      cases h
    | ok found =>
      obtain ⟨opened, location, writer⟩ := found
      cases hresult : (Pipeline.run decoder opened inputs options.scan options.progress
          writer).result with
      | error e =>
        simp only [runAdd, hscan, hopen, hresult, bind, Except.bind] at h
        cases h
      | ok reported =>
        obtain ⟨total, file⟩ := reported
        have htree : (runAdd compressor decoder before archive inputs options).tree =
            opened.put location (.file file.close) := by
          simp only [runAdd, hscan, hopen, hresult, bind, Except.bind]
        rw [htree, (openArchive_eq_ok hopen).1]
        exact ⟨_, rfl, rfl, rfl, .success hscan hopen (.sequential hscan) hresult⟩

theorem additions_of_calls {calls : List AddCall}
    (h : Calls compressor decoder archive start calls tree) :
    ∃ additions, additions.map Addition.call = calls ∧
      Additions compressor decoder archive start additions tree := by
  induction h with
  | start => exact ⟨[], rfl, .start⟩
  | @run calls call before summary _ hrecords hok ih =>
    obtain ⟨additions, hcalls, hadditions⟩ := ih
    obtain ⟨addition, hinputs, hoptions, hscanned, hadds⟩ := adds_of_runAdd hok
    have hcall : addition.call = call := by
      rw [Addition.call, hinputs, hoptions, Except.ok.inj (hscanned.symm.trans hrecords)]
    refine ⟨additions ++ [addition], ?_, hadditions.add hadds⟩
    rw [List.map_append, List.map_singleton, hcalls, hcall]
  | elsewhere _ hsame ih =>
    obtain ⟨additions, hcalls, hadditions⟩ := ih
    exact ⟨additions, hcalls, hadditions.elsewhere hsame⟩

/-- A run that succeeds has written its records, and nothing else. -/
theorem readsBack_of_adds (h : Adds compressor decoder archive before addition after)
    (hword : ∀ record ∈ addition.records, record.content.length < UInt64.size) :
    addition.ReadsBack := by
  cases h with
  | success _ hopen hends hok =>
    obtain ⟨arrived, rfl, rfl⟩ := Pipeline.ofScan_of_ends hends
    have hcreate := (openArchive_eq_ok hopen).2
    obtain ⟨frames, hwrote⟩ := Pipeline.wrote_of_ok _ hcreate hword hok
    exact Addition.readsBack_of_wrote hwrote rfl

/-- When a run succeeds, its whole stream has reached the file, behind what the file held. -/
theorem close_of_ends {setup : Pipeline.Setup} {inputs : List Path} {records : List FileRecord}
    {consumption : Consumption (CompressedFile compressor) BufferedFile} {summary : Summary}
    {file : BufferedFile} {level : Int32} {opened : OpenFile} {options : WriterOptions}
    (hopened : opened.AtEnd)
    (hcreate : Writer.create (.start level opened) options = .ok writer)
    (hends : Pipeline.Ends setup inputs writer records consumption)
    (hok : consumption.result = .ok (summary, file)) :
    file.close = opened.content ++
      compressor.compress level consumption.writer.sink.buffer.runs.reverse := by
  obtain ⟨arrived, rfl, rfl⟩ := Pipeline.ofScan_of_ends hends
  obtain ⟨total, hconsumed⟩ := Pipeline.consumed_of_ofScan_ok hok
  have hfinish := Pipeline.finish_of_consumeFrom_ok _ hconsumed
  have hfollows := Pipeline.follows_consumeFrom setup.progress {} writer arrived.records
  obtain ⟨_, rfl⟩ := Session.create_eq_ok hcreate
  have hstreams := (CompressedFile.streams_start level hopened).of_follows hfollows
  cases hfinish
  exact CompressedFile.close_finish hstreams

/-- What opening leaves of the archive file. -/
def FileTree.kept (tree : FileTree) (archive : Path) : OpenMode → Bytes
  | .append => tree.contentAt archive
  | .truncate => []

/-- An archive file that has been opened holds what was kept, is written at its end, and is found
under its path. -/
theorem archiveFile_of_opened {mode : OpenMode}
    (h : before.openForWriting (mode = .append) archive = .ok (opened, location)) :
    (opened.archiveFile location mode).content = before.kept archive mode ∧
      (opened.archiveFile location mode).AtEnd ∧
      ∀ content, (opened.put location (.file content)).content? archive = some content := by
  obtain ⟨hcheck, hplaces, rfl⟩ := FileTree.places_of_openForWriting h
  have hcontent : ∀ kept, (before.put location (.file kept)).contentOf location = kept := by
    intro kept
    rw [FileTree.contentOf, FileTree.node?_put_self hplaces.ne_nil]
  refine ⟨?_, ?_, FileTree.content?_put hcheck (FileTree.places_put hplaces _)⟩
  · cases mode with
    | append => exact hcontent _
    | truncate => exact hcontent _
  · cases mode with
    | append => exact .inl rfl
    | truncate => exact .inr (congrArg List.length (hcontent [])).symm

/-- What a run does to the archive file: what it adds goes to the end of what is kept. -/
theorem content?_of_adds (h : Adds compressor decoder archive before addition after) :
    after.content? archive =
      some (before.kept archive addition.options.mode ++ addition.part compressor) := by
  cases h with
  | success _ hopen hends hok =>
    obtain ⟨hopening, hcreate⟩ := openArchive_eq_ok hopen
    obtain ⟨hkept, hend, hcontent⟩ := archiveFile_of_opened hopening
    rw [hcontent, close_of_ends hend hcreate hends hok, hkept]
    rfl

/-- The archive file consists of the parts of the last run that emptied it, or of the first run, and
of all runs after it. -/
structure Shared (compressor : Compressor) (archive : Path) (tree : FileTree)
    (additions earlier : List Addition) (first : Addition) (later : List Addition) : Prop where
  additions_eq : additions = earlier ++ first :: later
  emptied : earlier = [] ∨ first.options.mode = .truncate
  appended : ∀ addition ∈ later, addition.options.mode = .append
  content_eq : tree.content? archive =
    some ((first :: later).flatMap (Addition.part compressor))

theorem shared_of_truncate (h : Adds compressor decoder archive before addition after)
    (hmode : addition.options.mode = .truncate) (additions : List Addition) :
    Shared compressor archive after (additions ++ [addition]) additions addition [] where
  additions_eq := rfl
  emptied := .inr hmode
  appended := by
    intro other hmem
    cases hmem
  content_eq := by
    rw [content?_of_adds h, hmode, FileTree.kept]
    simp

theorem shared_of_first (h : Adds compressor decoder archive before addition after)
    (hnone : before.content? archive = none) :
    Shared compressor archive after [addition] [] addition [] where
  additions_eq := rfl
  emptied := .inl rfl
  appended := by
    intro other hmem
    cases hmem
  content_eq := by
    have hkept : before.kept archive addition.options.mode = [] := by
      cases addition.options.mode with
      | append => exact FileTree.contentAt_of_no_file hnone
      | truncate => rfl
    rw [content?_of_adds h, hkept]
    simp

theorem shared_of_append {first : Addition}
    (hbefore : Shared compressor archive before additions earlier first later)
    (h : Adds compressor decoder archive before addition after)
    (hmode : addition.options.mode = .append) :
    Shared compressor archive after (additions ++ [addition]) earlier first
      (later ++ [addition]) where
  additions_eq := by
    rw [hbefore.additions_eq, List.append_assoc, List.cons_append]
  emptied := hbefore.emptied
  appended := by
    intro other hmem
    rcases List.mem_append.mp hmem with hearlier | hlast
    · exact hbefore.appended other hearlier
    · rw [List.mem_singleton.mp hlast]
      exact hmode
  content_eq := by
    rw [content?_of_adds h, hmode, FileTree.kept,
      FileTree.contentAt_of_content? hbefore.content_eq, ← List.cons_append, List.flatMap_append]
    simp

/-- Before the first run there is no archive file; after every run it is shared. -/
theorem shared_of_additions (hstart : start.content? archive = none)
    (h : Additions compressor decoder archive start additions tree) :
    (additions = [] ∧ tree.content? archive = none) ∨
      ∃ earlier first later, Shared compressor archive tree additions earlier first later := by
  induction h with
  | start => exact .inl ⟨rfl, hstart⟩
  | @add additions addition before after _ hadds ih =>
    right
    cases hmode : addition.options.mode with
    | truncate => exact ⟨_, _, _, shared_of_truncate hadds hmode additions⟩
    | append =>
      rcases ih with ⟨rfl, hnone⟩ | ⟨earlier, first, later, hshared⟩
      · exact ⟨_, _, _, shared_of_first hadds hnone⟩
      · exact ⟨_, _, _, shared_of_append hshared hadds hmode⟩
  | elsewhere _ hsame ih =>
    rcases ih with ⟨hnil, hnone⟩ | ⟨earlier, first, later, hshared⟩
    · exact .inl ⟨hnil, hsame.trans hnone⟩
    · exact .inr ⟨earlier, first, later,
        { hshared with content_eq := hsame.trans hshared.content_eq }⟩

theorem readsBack_of_additions (h : Additions compressor decoder archive start additions tree)
    (hword : ∀ addition ∈ additions, ∀ record ∈ addition.records,
      record.content.length < UInt64.size) :
    ∀ addition ∈ additions, addition.ReadsBack := by
  induction h with
  | start =>
    intro addition hmem
    cases hmem
  | add _ hadds ih =>
    intro other hmem
    have hother := hword other hmem
    rcases List.mem_append.mp hmem with hearlier | hlast
    · exact ih (fun other hmem => hword other (List.mem_append_left _ hmem)) other hearlier
    · obtain rfl := List.mem_singleton.mp hlast
      exact readsBack_of_adds hadds hother
  | elsewhere _ _ ih => exact ih hword

theorem streams?_parts (compressor : Compressor) (additions : List Addition) :
    compressor.streams? (additions.flatMap (Addition.part compressor)) =
      some (additions.map Addition.stream) := by
  induction additions with
  | nil => exact compressor.streams?_nil
  | cons addition additions ih =>
    rw [List.flatMap_cons, Addition.part, Compressor.compress, compressor.streams?_append, ih]
    rfl

section Reading

variable (h : ∀ addition ∈ additions, addition.ReadsBack)
include h

theorem decodeAll?_streams :
    Frame.decodeAll? (additions.flatMap Addition.stream) =
      some (additions.flatMap Addition.frames) := by
  have hencode : additions.flatMap Addition.stream =
      Frame.encodeAll (additions.flatMap Addition.frames) := by
    rw [Frame.encodeAll, List.flatMap_assoc]
    exact List.flatMap_congr fun addition hmem => (h addition hmem).stream_eq
  rw [hencode]
  apply Frame.decodeAll?_encodeAll
  intro frame hmem
  obtain ⟨addition, hin, hframe⟩ := List.mem_flatMap.mp hmem
  exact (h addition hin).wellFormed frame hframe

theorem recordsOf?_streams :
    recordsOf? (additions.flatMap Addition.stream) =
      some (additions.flatMap Addition.records) := by
  rw [recordsOf?, decodeAll?_streams h, Option.map_some, List.flatMap_assoc]
  congr 1
  exact List.flatMap_congr fun addition hmem => (h addition hmem).records_eq

end Reading

/-- After every run the archive file holds the streams of the last run that emptied it, or of the
first run, and of all runs after it. They are read back as the frames and the records of these runs
in order, each frame by its own header. Successful calls of `runAdd` are such runs. -/
theorem shared_file_reads_back (hstart : start.content? archive = none) :
    (∀ calls tree, Calls compressor decoder archive start calls tree →
      ∃ additions, additions.map Addition.call = calls ∧
        Additions compressor decoder archive start additions tree) ∧
    ∀ additions tree, Additions compressor decoder archive start additions tree →
      additions ≠ [] →
      (∀ addition ∈ additions, ∀ record ∈ addition.records,
        record.content.length < UInt64.size) →
      ∃ earlier first later file,
        additions = earlier ++ first :: later ∧
        (earlier = [] ∨ first.options.mode = .truncate) ∧
        (∀ addition ∈ later, addition.options.mode = .append) ∧
        tree.content? archive = some file ∧
        (tree.faults = [] → tree.look archive = .ok (.file file)) ∧
        compressor.decompress? file = some ((first :: later).flatMap Addition.stream) ∧
        Frame.decodeAll? ((first :: later).flatMap Addition.stream) =
          some ((first :: later).flatMap Addition.frames) ∧
        recordsOf? ((first :: later).flatMap Addition.stream) =
          some ((first :: later).flatMap Addition.records) ∧
        ∀ addition ∈ first :: later,
          addition.stream = Frame.encodeAll addition.frames ∧
          Frame.decodeAll? addition.stream = some addition.frames ∧
          recordsOf? addition.stream = some addition.records ∧
          ∀ frame ∈ addition.frames, addition.options.writer.Describes frame := by
  refine ⟨fun calls tree => additions_of_calls, ?_⟩
  intro additions tree h hruns hword
  rcases shared_of_additions hstart h with ⟨hnil, _⟩ | ⟨earlier, first, later, hshared⟩
  · exact absurd hnil hruns
  · have hall := readsBack_of_additions h hword
    have hheld : ∀ addition ∈ first :: later, addition.ReadsBack := by
      intro addition hmem
      apply hall
      rw [hshared.additions_eq]
      exact List.mem_append_right _ hmem
    refine ⟨earlier, first, later, _, hshared.additions_eq, hshared.emptied, hshared.appended,
      hshared.content_eq, FileTree.look_of_content? hshared.content_eq, ?_,
      decodeAll?_streams hheld, recordsOf?_streams hheld, ?_⟩
    · rw [Compressor.decompress?, streams?_parts]
      rfl
    · intro addition hmem
      have hone : ∀ other ∈ [addition], other.ReadsBack := by
        intro other hother
        rw [List.mem_singleton.mp hother]
        exact hheld addition hmem
      have hdecode := decodeAll?_streams hone
      have hrecords := recordsOf?_streams hone
      rw [List.flatMap_singleton, List.flatMap_singleton] at hdecode hrecords
      have hread := hheld addition hmem
      exact ⟨hread.stream_eq, hdecode, hrecords, hread.describes⟩

section Sharing

/-- A directory with one file in it. -/
def folder : FileTree where
  nodes := [([[100]], .directory), ([[97], [100]], .file [1, 2, 3])]

/-- Adds the folder to an archive file beside it. -/
def addFolder (tree : FileTree) (options : AddOptions) : AddOutcome :=
  runAdd Zstandard.compressor Gzip.member tree [47, 120] [[47, 100]] options

def appendPlain : AddOptions where
  writer := { pageSize := 4, layout := .plain }
  mode := .append

def truncatePlanes : AddOptions where
  writer := { pageSize := 2, format := { magic := "other", version := 9 } }

def appendSplit : AddOptions where
  writer := { pageSize := 8, blockThreshold := 4, layout := .plain }
  mode := .append

def addedOnce : FileTree := (addFolder folder appendPlain).tree

def addedTwice : FileTree := (addFolder addedOnce truncatePlanes).tree

/-- A file has been added to the folder since. -/
def refilled : FileTree := addedTwice.put [[98], [100]] (.file [7])

def plainCall : AddCall := ⟨[[47, 100]], appendPlain, [⟨"/d/a", [1, 2, 3]⟩]⟩

def planesCall : AddCall := ⟨[[47, 100]], truncatePlanes, [⟨"/d/a", [1, 2, 3]⟩]⟩

def splitCall : AddCall := ⟨[[47, 100]], appendSplit, [⟨"/d/a", [1, 2, 3]⟩, ⟨"/d/b", [7]⟩]⟩

/-- The second run empties the file, and the third adds to what the second has written. -/
theorem shared_file_reads_back_mixed :
    let tree := (addFolder refilled appendSplit).tree
    Calls Zstandard.compressor Gzip.member [47, 120] folder [plainCall, planesCall, splitCall]
        tree ∧
      ∃ file stream, tree.look [47, 120] = .ok (.file file) ∧
        Zstandard.compressor.decompress? file = some stream ∧
        recordsOf? stream = some [⟨"/d/a", [1, 2, 3]⟩, ⟨"/d/a", [1, 2, 3]⟩, ⟨"/d/b", [7]⟩] := by
  intro tree
  have hstart : folder.content? [47, 120] = none := by cbv
  have hplain : (addFolder folder appendPlain).result = .ok ⟨1, 3, 1, 0⟩ := by cbv
  have hplanes : (addFolder addedOnce truncatePlanes).result = .ok ⟨1, 3, 1, 0⟩ := by cbv
  have hsplits : (addFolder refilled appendSplit).result = .ok ⟨2, 4, 3, 0⟩ := by cbv
  have hrefilled : refilled.content? [47, 120] = addedTwice.content? [47, 120] := by cbv
  have hone : Calls Zstandard.compressor Gzip.member [47, 120] folder [plainCall] addedOnce :=
    .run .start (by cbv) hplain
  have htwo : Calls Zstandard.compressor Gzip.member [47, 120] folder [plainCall, planesCall]
      addedTwice := .run hone (by cbv) hplanes
  have hthree : Calls Zstandard.compressor Gzip.member [47, 120] folder
      [plainCall, planesCall, splitCall] tree := .run (htwo.elsewhere hrefilled) (by cbv) hsplits
  obtain ⟨hadded, hread⟩ := shared_file_reads_back hstart
  obtain ⟨additions, hcalls, hadditions⟩ := hadded _ _ hthree
  have hruns : additions ≠ [] := by
    rintro rfl
    cases hcalls
  have hword : ∀ addition ∈ additions, ∀ record ∈ addition.records,
      record.content.length < UInt64.size := by
    intro addition hmem
    have hcall : addition.call ∈ [plainCall, planesCall, splitCall] :=
      hcalls ▸ List.mem_map_of_mem hmem
    have hall : ∀ call ∈ [plainCall, planesCall, splitCall], ∀ record ∈ call.records,
        record.content.length < UInt64.size := by decide
    exact hall _ hcall
  obtain ⟨earlier, first, later, file, rfl, hemptied, hlater, -, hfile, hstream, -, hrecords, -⟩ :=
    hread _ _ hadditions hruns hword
  have hfaults : (addFolder refilled appendSplit).tree.faults = [] := by cbv
  refine ⟨hthree, file, _, hfile hfaults, hstream, hrecords.trans ?_⟩
  have hflat : (first :: later).flatMap Addition.records =
      ((first :: later).map Addition.call).flatMap AddCall.records := by
    rw [List.flatMap_map]
    rfl
  have hkept : (first :: later).map Addition.call = [planesCall, splitCall] := by
    rcases earlier with _ | ⟨one, _ | ⟨two, _ | ⟨three, earlier⟩⟩⟩
    · have hrest : later.map Addition.call = [planesCall, splitCall] := (List.cons.inj hcalls).2
      have hmem : planesCall ∈ later.map Addition.call := hrest ▸ List.mem_cons_self
      obtain ⟨second, hsecond, hcall⟩ := List.mem_map.mp hmem
      have hoptions : second.options = truncatePlanes := congrArg AddCall.options hcall
      have hmode := hlater second hsecond
      rw [hoptions] at hmode
      cases hmode
    · exact (List.cons.inj hcalls).2
    · rcases hemptied with hnil | hmode
      · cases hnil
      · have hlast : (first :: later).map Addition.call = [splitCall] :=
          (List.cons.inj (List.cons.inj hcalls).2).2
        have hoptions : first.options = appendSplit :=
          congrArg AddCall.options (List.cons.inj hlast).1
        rw [hoptions] at hmode
        cases hmode
    · simp at hcalls
  rw [hflat, hkept]
  rfl

end Sharing

end PlaneArchive
