import PlaneArchive.Compression
import PlaneArchive.Proofs.Sink.Filling

/-! # What reaches a file

A file that is opened empty, or for appending, is only ever added to. However much was held back on
the way, once it is closed it holds all that was written to it behind what it held before; and if a
stream was written to it, this is the whole stream.
-/
namespace PlaneArchive

namespace OpenFile

variable {file : OpenFile}

/-- The next run goes to the end of the file. -/
def AtEnd (file : OpenFile) : Prop := file.appends = true ∨ file.position = file.content.length

theorem write_eq (h : file.AtEnd) (run : Bytes) :
    file.write run =
      { file with
        content := file.content ++ run
        position := (file.content ++ run).length } := by
  have hstart : (if file.appends then file.content.length else file.position) =
      file.content.length := by
    rcases h with happends | hposition
    · rw [if_pos happends]
    · rw [hposition, ite_self]
  rw [write, hstart]
  simp

theorem atEnd_write (h : file.AtEnd) (run : Bytes) : (file.write run).AtEnd := by
  right
  rw [write_eq h]

end OpenFile

namespace BufferedFile

variable {buffered : BufferedFile}

/-- What has been written, be it held back. -/
def total (buffered : BufferedFile) : Bytes := buffered.file.content ++ buffered.held

/-- The runs that are written go one behind the other. -/
structure Grows (buffered after : BufferedFile) (run : Bytes) : Prop where
  atEnd : after.file.AtEnd
  total_eq : after.total = buffered.total ++ run

theorem Grows.trans {between after : BufferedFile} {run more : Bytes}
    (h : buffered.Grows between run) (hmore : between.Grows after more) :
    buffered.Grows after (run ++ more) where
  atEnd := hmore.atEnd
  total_eq := by rw [hmore.total_eq, h.total_eq, List.append_assoc]

section AtEnd

variable (h : buffered.file.AtEnd)
include h

theorem grows_flush : buffered.Grows buffered.flush [] where
  atEnd := OpenFile.atEnd_write h _
  total_eq := by rw [total, flush, OpenFile.write_eq h, total]

theorem grows_hold (run : Bytes) :
    buffered.Grows { buffered with held := buffered.held ++ run } run where
  atEnd := h
  total_eq := (List.append_assoc _ _ _).symm

theorem grows_write_through (hheld : buffered.held = []) (run : Bytes) :
    buffered.Grows { buffered with file := buffered.file.write run } run where
  atEnd := OpenFile.atEnd_write h _
  total_eq := by
    rw [total, total, OpenFile.write_eq h, hheld, List.append_nil, List.append_nil]

theorem grows_write (run : Bytes) : buffered.Grows (buffered.write run) run := by
  rw [write]
  by_cases hroom : run.length < capacity - buffered.held.length
  · rw [if_pos hroom]
    exact grows_hold h run
  · rw [if_neg hroom]
    by_cases hover : capacity - buffered.held.length < run.length
    · have hflush := grows_flush h
      rw [if_pos hover]
      by_cases hlarge : capacity ≤ run.length
      · rw [if_pos hlarge]
        exact hflush.trans (grows_write_through hflush.atEnd rfl run)
      · rw [if_neg hlarge]
        exact hflush.trans (grows_hold hflush.atEnd run)
    · rw [if_neg hover]
      by_cases hlarge : capacity ≤ run.length
      · -- The run fills all room there is, so nothing was held back.
        have hheld : buffered.held = [] := by
          have hcapacity : 0 < capacity := by decide
          exact List.eq_nil_of_length_eq_zero (by omega)
        rw [if_pos hlarge]
        exact grows_write_through h hheld run
      · rw [if_neg hlarge]
        exact grows_hold h run

theorem close_eq : buffered.close = buffered.total := by
  rw [close, flush, OpenFile.write_eq h, total]

end AtEnd

end BufferedFile

namespace CompressedFile

variable {compressor : Compressor} {sink after : CompressedFile compressor} {level : Int32}
  {before : Bytes}

/-- The file holds what it held before, and as much of the stream as is ready; whatever still comes,
the stream will be the one of all runs. -/
structure Streams (sink : CompressedFile compressor) (before : Bytes) (level : Int32) : Prop where
  atEnd : sink.file.file.AtEnd
  stream_eq : ∀ more, sink.file.total ++ compressor.encode sink.encoder more =
    before ++ compressor.compress level (sink.buffer.runs.reverse ++ more)

theorem streams_start (level : Int32) {file : OpenFile} (h : file.AtEnd) :
    (start level file : CompressedFile compressor).Streams file.content level where
  atEnd := h
  stream_eq := by
    intro more
    rw [start, BufferedFile.total, List.append_nil]
    rfl

theorem Streams.offer (h : sink.Streams before level) (run : Bytes) :
    (sink.offer run).2.Streams before level := by
  have hgrows := BufferedFile.grows_write h.atEnd (compressor.feed sink.encoder run).1
  constructor
  · exact hgrows.atEnd
  · intro more
    have hstream := h.stream_eq (run :: more)
    rw [Encoder.encode, ← List.append_assoc, ← hgrows.total_eq] at hstream
    rw [CompressedFile.offer, Buffer.push, List.reverse_cons, List.append_assoc]
    exact hstream

theorem Streams.of_follows (h : sink.Streams before level) (hfollows : Sink.Follows sink after) :
    after.Streams before level := by
  induction hfollows with
  | refl => exact h
  | tail _ hoffer ih =>
    obtain ⟨run, rfl⟩ := hoffer
    exact ih.offer run

theorem close_finish (h : sink.Streams before level) :
    sink.finish.close = before ++ compressor.compress level sink.buffer.runs.reverse := by
  have hwrite := BufferedFile.grows_write h.atEnd (compressor.finish sink.encoder)
  have hflush := hwrite.trans (BufferedFile.grows_flush hwrite.atEnd)
  have hstream := h.stream_eq []
  rw [List.append_nil] at hstream
  rw [finish, BufferedFile.close_eq hflush.atEnd, hflush.total_eq, List.append_nil]
  exact hstream

end CompressedFile

end PlaneArchive
