import PlaneArchive.Proofs.Frame.Tearing
import PlaneArchive.Proofs.Writer.Emission
import PlaneArchive.Proofs.Writer.Poisoning

/-! # Sinks that fail half-way

The same requests are sent to a writer over a buffer and to one over a sink that fills up. What the
full sink holds is a prefix of what the buffer holds: the frames that were written, and at most
the torn front of one more, after which the writer is poisoned.
-/
namespace PlaneArchive

namespace Writer

/-- Writing has put as much of the frames into the sink as there was room for. -/
structure Emits (writer : Writer LimitedSink) (room : ℕ) (frames : List Frame)
    (outcome : Except ArchiveError Unit × Writer LimitedSink) : Prop where
  taken_eq : outcome.2.sink.buffer.bytes =
    writer.sink.buffer.bytes ++ (Frame.encodeAll frames).take room
  count_eq : outcome.2.blocksWritten = writer.blocksWritten + Frame.wholeWithin room frames
  fits : outcome.1 = .ok () → (Frame.encodeAll frames).length ≤ room

section

variable {writer : Writer LimitedSink} {room : ℕ} {frame : Frame} {frames : List Frame}

/-- A frame for which there is room is put in front of what the frames after it put in. -/
theorem Emits.cons_of_fits {sink : LimitedSink}
    {outcome : Except ArchiveError Unit × Writer LimitedSink}
    (hfills : writer.sink.Fills room frame.encode (.ok (), sink))
    (hrest : Emits { writer with sink, blocksWritten := writer.blocksWritten + 1 }
      (room - frame.encode.length) frames outcome) :
    writer.Emits room (frame :: frames) outcome := by
  have hfit : frame.encode.length ≤ room := hfills.ok_iff.mp rfl
  have htaken : sink.buffer.bytes = writer.sink.buffer.bytes ++ frame.encode := by
    rw [hfills.taken_eq, List.take_of_length_le hfit]
  exact {
    taken_eq := by
      rw [hrest.taken_eq, htaken, Frame.encodeAll_cons, List.take_append,
        List.take_of_length_le hfit, ← List.append_assoc]
    count_eq := by
      rw [hrest.count_eq, Frame.wholeWithin, if_pos hfit]
      dsimp only
      omega
    fits := by
      intro hok
      have := hrest.fits hok
      rw [Frame.encodeAll_cons, List.length_append]
      omega }

/-- A frame for which there is no room is torn, and none follows it. -/
theorem Emits.cons_of_failed {sink : LimitedSink} {cause : IoError} {e : ArchiveError}
    (hfills : writer.sink.Fills room frame.encode (.error cause, sink)) (frames : List Frame) :
    writer.Emits room (frame :: frames) (.error e, { writer with sink }) := by
  have hfull : ¬ frame.encode.length ≤ room := by
    intro hfit
    have := hfills.ok_iff.mpr hfit
    cases this
  exact {
    taken_eq := by
      rw [Frame.encodeAll_cons, List.take_append_of_le_length (by omega)]
      exact hfills.taken_eq
    count_eq := by
      rw [Frame.wholeWithin, if_neg hfull]
      rfl
    fits := by
      intro hok
      cases hok }

end

theorem emits_writeBlocks {writer : Writer LimitedSink} {room : ℕ}
    (h : writer.sink.room? = some room) (blocks : List Block) :
    writer.Emits room (writer.options.dueFrames blocks) (writer.writeBlocks blocks) := by
  -- The room that one frame leaves is the room of the sink for the blocks after it.
  induction blocks generalizing writer room with
  | nil =>
    exact {
      taken_eq := by simp [writeBlocks, WriterOptions.dueFrames, Frame.encodeAll]
      count_eq := rfl
      fits := fun _ => Nat.zero_le _ }
  | cons block blocks ih =>
    rw [WriterOptions.dueFrames, writeBlocks]
    cases hdue : writer.options.dueFrame? block with
    | none =>
      obtain ⟨e, hw⟩ := writeBlock_of_none hdue
      rw [hw]
      exact {
        taken_eq := by simp [Frame.encodeAll]
        count_eq := rfl
        fits := fun hok => by cases hok }
    | some frame =>
      have hfills : writer.sink.Fills room frame.encode
          (Sink.writeParts writer.sink frame.parts) := LimitedSink.fills_writeParts h frame.parts
      rw [writeBlock_of_some hdue]
      cases hparts : Sink.writeParts writer.sink frame.parts with
      | mk outcome sink =>
        rw [hparts] at hfills
        cases outcome with
        | ok _ => exact .cons_of_fits hfills (ih hfills.room_eq)
        | error cause => exact .cons_of_failed hfills _

variable {σ ι : Type} [Sink σ ι]

theorem settled_sink (start : Writer σ) (packing : Packing) :
    (start.settled packing).2.sink = (start.writeBlocks packing.closed).2.sink ∧
      (start.settled packing).2.blocksWritten =
        (start.writeBlocks packing.closed).2.blocksWritten := by
  unfold settled
  cases start.writeBlocks packing.closed with
  | mk outcome after => cases outcome <;> exact ⟨rfl, rfl⟩

theorem settled_error_of_not_ok {start : Writer σ} {packing : Packing}
    (h : (start.writeBlocks packing.closed).1 ≠ .ok ()) :
    ∃ e, (start.settled packing).1 = .error e := by
  unfold settled
  cases hw : start.writeBlocks packing.closed with
  | mk outcome after =>
    rw [hw] at h
    cases outcome with
    | ok _ => exact absurd rfl h
    | error e => exact ⟨e, rfl⟩

end Writer

namespace Session

theorem taken_after_buffer (options : WriterOptions) (requests : List Request) :
    ((start ({} : Buffer) options).after requests).taken =
      Frame.encodeAll
        (options.dueFrames (options.pack Block.sizeLimit requests).closed) := by
  have hbytes := (Writer.delivers_writeBlocks (Buffer.takesAll (start {} options).writer.sink)
    (options.pack Block.sizeLimit requests).closed).taken_eq
  rw [taken, after_start]
  change ((start ({} : Buffer) options).writer.settled
    (options.pack Block.sizeLimit requests)).2.sink.bytes = _
  rw [(Writer.settled_sink _ _).1]
  exact hbytes

/-- The session over a sink that fills up holds as much of these frames as there was room for. -/
theorem after_limited (options : WriterOptions) (faults : SinkFaults) (limit : ℕ)
    (requests : List Request) :
    let frames := options.dueFrames (options.pack Block.sizeLimit requests).closed
    let session := (start ({ room? := some limit, faults } : LimitedSink) options).after requests
    session.taken = (Frame.encodeAll frames).take limit ∧
      session.writer.blocksWritten = Frame.wholeWithin limit frames ∧
      (limit < (Frame.encodeAll frames).length → ∃ earlier request later,
        requests = earlier ++ request :: later ∧
        ((start ({ room? := some limit, faults } : LimitedSink) options).after
          earlier).FlushFails request) := by
  intro frames session
  have hfresh := fresh_start ({ room? := some limit, faults } : LimitedSink) options
  have hemits := @Writer.emits_writeBlocks
    (start ({ room? := some limit, faults } : LimitedSink) options).writer limit rfl
    (options.pack Block.sizeLimit requests).closed
  obtain ⟨hsink, hcount⟩ := Writer.settled_sink
    (start ({ room? := some limit, faults } : LimitedSink) options).writer
    (options.pack Block.sizeLimit requests)
  have hwriter : session.writer =
      ((start ({ room? := some limit, faults } : LimitedSink) options).writer.settled
        (options.pack Block.sizeLimit requests)).2 :=
    congrArg Session.writer (after_start _ options requests)
  refine ⟨?_, ?_, ?_⟩
  · change session.writer.sink.buffer.bytes = _
    rw [hwriter, hsink, hemits.taken_eq]
    rfl
  · rw [hwriter, hcount, hemits.count_eq]
    exact Nat.zero_add _
  · intro hshort
    have hnot : ((start ({ room? := some limit, faults } : LimitedSink) options).writer.writeBlocks
        (options.pack Block.sizeLimit requests).closed).1 ≠ .ok () := fun hok =>
      absurd (hemits.fits hok) (Nat.not_le.mpr hshort)
    obtain ⟨e, he⟩ := Writer.settled_error_of_not_ok hnot
    exact exists_flushFails hfresh he

/-- A sink that fills up holds the front of the whole stream; at any time it holds the frames that
were written and, only after a failed flush, the torn front of one more; and a failed flush is the
last thing that reaches it. -/
theorem limited_sink_holds_prefix (options : WriterOptions) (faults : SinkFaults) (limit : ℕ)
    (requests : List Request) :
    let whole := (start ({} : Buffer) options).after requests
    let limited := (start ({ room? := some limit, faults } : LimitedSink) options).after
    (limited requests).taken = whole.taken.take limit ∧
      (∃ frames, (∀ frame ∈ frames, frame.WellFormed) ∧ whole.taken = Frame.encodeAll frames ∧
        ∀ done, done <+: requests → ∃ torn,
          Frame.Torn frames (limited done).writer.blocksWritten torn (limited done).taken ∧
          (torn ≠ [] → ∃ earlier request later, done = earlier ++ request :: later ∧
            (limited earlier).FlushFails request)) ∧
      ∀ earlier request later next, (limited earlier).FlushFails request →
        let session := limited (earlier ++ request :: later)
        (session.perform next).1 =
            (if session.isOpen then poisonedAnswer next else .alreadyClosed) ∧
          (session.perform next).2.taken = (limited (earlier ++ [request])).taken := by
  intro whole limited
  have hwhole : whole.taken = Frame.encodeAll
      (options.dueFrames (options.pack Block.sizeLimit requests).closed) :=
    taken_after_buffer options requests
  refine ⟨?_, ⟨options.dueFrames (options.pack Block.sizeLimit requests).closed, ?_, hwhole, ?_⟩,
    ?_⟩
  · rw [hwhole]
    exact (after_limited options faults limit requests).1
  · intro frame hmem
    exact WriterOptions.wellFormed_of_mem_dueFrames hmem
  · rintro done ⟨rest, rfl⟩
    obtain ⟨htaken, hcount, hfails⟩ := after_limited options faults limit done
    obtain ⟨torn, htorn, hshort⟩ := Frame.torn_take_encodeAll limit
      (options.dueFrames (options.pack Block.sizeLimit done).closed)
    rw [← htaken, ← hcount] at htorn
    obtain ⟨more, hmore⟩ := options.closed_pack_prefix Block.sizeLimit done rest
    refine ⟨torn, htorn.of_prefix ?_, fun hne => hfails (hshort hne)⟩
    rw [← hmore]
    exact options.dueFrames_prefix _ more
  · intro earlier request later next hfail session
    have hfresh := fresh_start ({ room? := some limit, faults } : LimitedSink) options
    have hanswer := answer_after_flushFails hfresh hfail later
    refine ⟨(hanswer next).1, ?_⟩
    have hnext := (answer_after_flushFails hfresh hfail (later ++ [next]) next).2
    have hsplit : earlier ++ request :: (later ++ [next]) =
        (earlier ++ request :: later) ++ [next] := by simp
    rw [hsplit, after_append_singleton] at hnext
    exact congrArg (fun writer => Sink.taken writer.sink) hnext

theorem flushFails_within_header :
    ((start ({ room? := some 7 } : LimitedSink) { pageSize := 4 }).after
      [.write ⟨"a", [1, 2, 3]⟩]).FlushFails .flush where
  isOpen := by decide
  usable := by decide
  not_refused := by decide
  fails := ⟨.io [] .refused, by decide +kernel⟩

theorem limited_sink_holds_seven_bytes :
    let limited := (start ({ room? := some 7 } : LimitedSink) { pageSize := 4 }).after
    (limited [.write ⟨"a", [1, 2, 3]⟩, .flush, .close]).taken =
        ((start ({} : Buffer) { pageSize := 4 }).after
          [.write ⟨"a", [1, 2, 3]⟩, .flush, .close]).taken.take 7 ∧
      ((limited [.write ⟨"a", [1, 2, 3]⟩, .flush]).perform .close).1 =
        .finished (.error .poisoned) := by
  obtain ⟨htaken, _, hpoisoned⟩ := limited_sink_holds_prefix { pageSize := 4 } {} 7
    [.write ⟨"a", [1, 2, 3]⟩, .flush, .close]
  refine ⟨htaken, ?_⟩
  exact (hpoisoned [.write ⟨"a", [1, 2, 3]⟩] .flush [] .close flushFails_within_header).1

end Session

end PlaneArchive
