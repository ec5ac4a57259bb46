import PlaneArchive.Proofs.Writer.Emission

/-! # Frames are counted

Whatever the sink is like, a request that succeeds has put whole frames into it, and the writer has
counted them. Nothing else has reached the sink then.
-/
namespace PlaneArchive.Writer

variable {σ ι : Type} [Sink σ ι] {writer between after : Writer σ} {frames more : List Frame}

/-- Some frames have been put into the sink and counted. -/
structure Adds (before after : Writer σ) (frames : List Frame) : Prop where
  taken_eq : Sink.taken after.sink = Sink.taken before.sink ++ Frame.encodeAll frames
  count_eq : after.blocksWritten = before.blocksWritten + frames.length
  wellFormed : ∀ frame ∈ frames, frame.WellFormed

namespace Adds

theorem none (writer : Writer σ) : Adds writer writer [] where
  taken_eq := (List.append_nil _).symm
  count_eq := rfl
  wellFormed := fun _ hmem => absurd hmem List.not_mem_nil

theorem trans (h : Adds writer between frames) (hmore : Adds between after more) :
    Adds writer after (frames ++ more) where
  taken_eq := by
    rw [hmore.taken_eq, h.taken_eq, List.append_assoc, Frame.encodeAll, Frame.encodeAll,
      Frame.encodeAll, List.flatMap_append]
  count_eq := by
    rw [hmore.count_eq, h.count_eq, List.length_append, Nat.add_assoc]
  wellFormed := by
    intro frame hmem
    rcases List.mem_append.mp hmem with hfirst | hlast
    · exact h.wellFormed frame hfirst
    · exact hmore.wellFormed frame hlast

end Adds

theorem adds_of_writeBlock_ok {block : Block} (h : writer.writeBlock block = (.ok (), after)) :
    ∃ frame, writer.options.dueFrame? block = some frame ∧ writer.Adds after [frame] := by
  cases hdue : writer.options.dueFrame? block with
  | none =>
    obtain ⟨e, herror⟩ := writeBlock_of_none hdue
    rw [h] at herror
    cases herror
  | some frame =>
    rw [writeBlock_of_some hdue] at h
    cases hparts : Sink.writeParts writer.sink frame.parts with
    | mk outcome sink =>
      rw [hparts] at h
      cases outcome with
      | error cause => cases h
      | ok _ =>
        cases h
        refine ⟨frame, rfl, ?_, rfl, ?_⟩
        · rw [Frame.encodeAll, List.flatMap_singleton]
          exact Sink.taken_of_writeParts hparts
        · intro other hmem
          rw [List.mem_singleton.mp hmem]
          exact WriterOptions.wellFormed_of_dueFrame? hdue

/-- Blocks that have been written all had frames. -/
theorem adds_of_writeBlocks_ok {blocks : List Block}
    (h : writer.writeBlocks blocks = (.ok (), after)) :
    ∃ frames, blocks.map writer.options.dueFrame? = frames.map some ∧ writer.Adds after frames := by
  induction blocks generalizing writer with
  | nil =>
    cases h
    exact ⟨[], rfl, .none after⟩
  | cons block blocks ih =>
    obtain ⟨sink, count, hkeep⟩ := writer.writeBlock_keeps block
    rw [writeBlocks] at h
    cases hw : writer.writeBlock block with
    | mk outcome between =>
      rw [hw] at h hkeep
      cases outcome with
      | error e => cases h
      | ok _ =>
        obtain ⟨frame, hdue, hfirst⟩ := adds_of_writeBlock_ok hw
        obtain ⟨frames, hframes, hrest⟩ := ih h
        have hoptions : between.options = writer.options := by
          dsimp only at hkeep
          rw [hkeep]
        rw [hoptions] at hframes
        refine ⟨frame :: frames, ?_, hfirst.trans hrest⟩
        rw [List.map_cons, List.map_cons, hdue, hframes]

theorem adds_of_flush_ok (h : writer.flush = (.ok (), after)) :
    ∃ frame, writer.Adds after [frame] := by
  rw [flush] at h
  by_cases hp : writer.poisoned = true
  · rw [if_pos hp] at h
    cases h
  · rw [if_neg hp] at h
    cases hw : writeBlock { writer with block := .empty } writer.block with
    | mk outcome between =>
      rw [hw] at h
      cases outcome with
      | error e => cases h
      | ok _ =>
        cases h
        obtain ⟨frame, -, hadds⟩ := adds_of_writeBlock_ok hw
        exact ⟨frame, hadds.taken_eq, hadds.count_eq, hadds.wellFormed⟩

theorem adds_of_append_ok {record : FileRecord} (h : writer.append record = (.ok (), after)) :
    ∃ frames, writer.Adds after frames := by
  rw [append] at h
  cases hblock : writer.block.append record writer.options.pageSize.toUInt64 with
  | error e =>
    rw [hblock] at h
    cases h
  | ok block =>
    rw [hblock] at h
    dsimp only at h
    by_cases hfull : writer.options.blockThreshold ≤ block.len
    · rw [if_pos hfull] at h
      obtain ⟨frame, hadds⟩ := adds_of_flush_ok h
      exact ⟨[frame], hadds.taken_eq, hadds.count_eq, hadds.wellFormed⟩
    · rw [if_neg hfull] at h
      cases h
      have hnone := Adds.none writer
      exact ⟨[], hnone.taken_eq, hnone.count_eq, hnone.wellFormed⟩

theorem adds_of_write_ok {record : FileRecord} (h : writer.write record = (.ok (), after)) :
    ∃ frames, writer.Adds after frames := by
  unfold write at h
  split at h
  · cases h
  · dsimp only at h
    split at h
    · cases h
    · split at h
      · cases h
      · split at h
        · cases hw : writer.flush with
          | mk outcome between =>
            rw [hw] at h
            cases outcome with
            | error e => cases h
            | ok _ =>
              obtain ⟨frame, hflush⟩ := adds_of_flush_ok hw
              obtain ⟨frames, happend⟩ := adds_of_append_ok h
              exact ⟨[frame] ++ frames, hflush.trans happend⟩
        · exact adds_of_append_ok h

/-- A writer that can be closed writes one more frame. -/
theorem adds_of_close_ok {inner : ι} (h : writer.close = (.ok inner, after)) :
    writer.flush = (.ok (), after) ∧ Sink.finish after.sink = .ok inner ∧
      ∃ frame, writer.Adds after [frame] := by
  rw [close] at h
  cases hflush : writer.flush with
  | mk outcome flushed =>
    rw [hflush] at h
    cases outcome with
    | error e => cases h
    | ok _ =>
      dsimp only at h
      cases hfinish : Sink.finish flushed.sink with
      | error cause =>
        rw [hfinish] at h
        cases h
      | ok left =>
        rw [hfinish] at h
        cases h
        exact ⟨rfl, hfinish, adds_of_flush_ok hflush⟩

end PlaneArchive.Writer
