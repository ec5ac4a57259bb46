import PlaneArchive.Proofs.Sink.Filling
import PlaneArchive.Proofs.Writer.Cuts
import PlaneArchive.Proofs.Writer.Frames

/-! # The frames that blocks put into a sink

Blocks are due as frames one after another, up to the first block that has no frame. A sink sees
the encodings of the frames that are due, or as much of them as it takes.
-/
namespace PlaneArchive

namespace WriterOptions

variable {options : WriterOptions} {block : Block} {frame : Frame}

/-- The frame that a block is written as, unless it has none or its header is too long. -/
def dueFrame? (options : WriterOptions) (block : Block) : Option Frame :=
  match options.frame block with
  | .error _ => none
  | .ok frame => if UInt32.size ≤ frame.header.encode.length then none else some frame

def dueFrames (options : WriterOptions) : List Block → List Frame
  | [] => []
  | block :: blocks =>
    match options.dueFrame? block with
    | none => []
    | some frame => frame :: options.dueFrames blocks

theorem dueFrame?_eq_some_iff : options.dueFrame? block = some frame ↔
    options.frame block = .ok frame ∧ frame.header.encode.length < UInt32.size := by
  unfold dueFrame?
  cases options.frame block with
  | error e => simp
  | ok due =>
    dsimp only
    by_cases hlong : UInt32.size ≤ due.header.encode.length
    · rw [if_pos hlong]
      constructor
      · intro h
        cases h
      · rintro ⟨h, hshort⟩
        cases h
        omega
    · rw [if_neg hlong]
      constructor
      · intro h
        cases h
        exact ⟨rfl, by omega⟩
      · rintro ⟨h, _⟩
        cases h
        rfl

theorem wellFormed_of_dueFrame? (h : options.dueFrame? block = some frame) : frame.WellFormed := by
  obtain ⟨hframe, hshort⟩ := dueFrame?_eq_some_iff.mp h
  exact ⟨payloadSize_of_frame hframe, hshort⟩

theorem exists_block_of_mem_dueFrames {blocks : List Block} (h : frame ∈ options.dueFrames blocks) :
    ∃ block ∈ blocks, options.dueFrame? block = some frame := by
  induction blocks with
  | nil => cases h
  | cons block blocks ih =>
    unfold dueFrames at h
    cases hdue : options.dueFrame? block with
    | none =>
      rw [hdue] at h
      cases h
    | some due =>
      rw [hdue] at h
      rcases List.mem_cons.mp h with rfl | htail
      · exact ⟨block, List.mem_cons_self, hdue⟩
      · obtain ⟨later, hmem, hlater⟩ := ih htail
        exact ⟨later, List.mem_cons_of_mem _ hmem, hlater⟩

theorem wellFormed_of_mem_dueFrames {blocks : List Block} (h : frame ∈ options.dueFrames blocks) :
    frame.WellFormed := by
  obtain ⟨_, _, hdue⟩ := exists_block_of_mem_dueFrames h
  exact wellFormed_of_dueFrame? hdue

/-- More blocks never change the frames that are due before them. -/
theorem dueFrames_prefix (options : WriterOptions) (blocks more : List Block) :
    options.dueFrames blocks <+: options.dueFrames (blocks ++ more) := by
  induction blocks with
  | nil => exact List.nil_prefix
  | cons block blocks ih =>
    rw [List.cons_append, dueFrames, dueFrames]
    cases options.dueFrame? block with
    | none => exact List.prefix_rfl
    | some due => exact List.cons_prefix_cons.mpr ⟨rfl, ih⟩

theorem dueFrames_eq_map {blocks : List Block} {f : Block → Frame}
    (h : ∀ block ∈ blocks, options.dueFrame? block = some (f block)) :
    options.dueFrames blocks = blocks.map f := by
  induction blocks with
  | nil => rfl
  | cons block blocks ih =>
    rw [dueFrames, h block List.mem_cons_self, List.map_cons]
    dsimp only
    rw [ih fun later hmem => h later (List.mem_cons_of_mem _ hmem)]

end WriterOptions

namespace Writer

variable {σ ι : Type} [Sink σ ι] {block : Block} {frame : Frame}

theorem writeBlock_of_none {writer : Writer σ} (h : writer.options.dueFrame? block = none) :
    ∃ e, writer.writeBlock block = (.error e, writer) := by
  unfold WriterOptions.dueFrame? at h
  rw [writeBlock]
  cases hframe : writer.options.frame block with
  | error e => exact ⟨e, rfl⟩
  | ok due =>
    rw [hframe] at h
    dsimp only at h ⊢
    rw [Frame.write_eq]
    by_cases hlong : UInt32.size ≤ due.header.encode.length
    · rw [if_pos hlong]
      exact ⟨_, rfl⟩
    · rw [if_neg hlong] at h
      cases h

theorem writeBlock_of_some {writer : Writer σ} (h : writer.options.dueFrame? block = some frame) :
    writer.writeBlock block =
      match Sink.writeParts writer.sink frame.parts with
      | (.ok (), sink) => (.ok (), { writer with sink, blocksWritten := writer.blocksWritten + 1 })
      | (.error cause, sink) => (.error (.io [] cause), { writer with sink }) := by
  obtain ⟨hframe, hshort⟩ := WriterOptions.dueFrame?_eq_some_iff.mp h
  rw [writeBlock, hframe]
  dsimp only
  rw [Frame.write_eq, if_neg (Nat.not_le.mpr hshort)]
  cases Sink.writeParts writer.sink frame.parts with
  | mk outcome sink => cases outcome <;> rfl

section Following

variable (writer : Writer σ)

theorem follows_writeBlock (block : Block) :
    Sink.Follows writer.sink (writer.writeBlock block).2.sink := by
  cases hdue : writer.options.dueFrame? block with
  | none =>
    obtain ⟨e, hw⟩ := writeBlock_of_none hdue
    rw [hw]
    exact .refl
  | some frame =>
    have hparts := Sink.follows_writeParts writer.sink frame.parts
    rw [writeBlock_of_some hdue]
    cases hw : Sink.writeParts writer.sink frame.parts with
    | mk outcome after =>
      rw [hw] at hparts
      cases outcome with
      | ok _ => exact hparts
      | error cause => exact hparts

theorem follows_writeBlocks (blocks : List Block) :
    Sink.Follows writer.sink (writer.writeBlocks blocks).2.sink := by
  induction blocks generalizing writer with
  | nil => exact .refl
  | cons block blocks ih =>
    have hblock := writer.follows_writeBlock block
    rw [writeBlocks]
    cases hw : writer.writeBlock block with
    | mk outcome between =>
      rw [hw] at hblock
      cases outcome with
      | ok _ => exact hblock.trans (ih between)
      | error e => exact hblock

theorem follows_flush : Sink.Follows writer.sink writer.flush.2.sink := by
  have hblock := follows_writeBlock { writer with block := .empty } writer.block
  rw [flush]
  by_cases hp : writer.poisoned = true
  · rw [if_pos hp]
    exact .refl
  · rw [if_neg hp]
    cases hw : writeBlock { writer with block := .empty } writer.block with
    | mk outcome after =>
      rw [hw] at hblock
      cases outcome with
      | ok _ => exact hblock
      | error e => exact hblock

theorem follows_append (record : FileRecord) :
    Sink.Follows writer.sink (writer.append record).2.sink := by
  rw [append]
  cases writer.block.append record writer.options.pageSize.toUInt64 with
  | error e => exact .refl
  | ok block =>
    dsimp only
    by_cases hfull : writer.options.blockThreshold ≤ block.len
    · rw [if_pos hfull]
      exact follows_flush { writer with block }
    · rw [if_neg hfull]
      exact .refl

theorem follows_write (record : FileRecord) :
    Sink.Follows writer.sink (writer.write record).2.sink := by
  have hflush := writer.follows_flush
  rw [write]
  by_cases hp : writer.poisoned = true
  · rw [if_pos hp]
    exact .refl
  · rw [if_neg hp]
    dsimp only
    cases Block.paddedSize (UInt64.ofNat record.content.length)
        writer.options.pageSize.toUInt64 with
    | error e => exact .refl
    | ok padded =>
      dsimp only
      by_cases hlarge : writer.payloadLimit < padded.toNat
      · rw [if_pos hlarge]
        exact .refl
      · rw [if_neg hlarge]
        split
        · cases hw : writer.flush with
          | mk outcome between =>
            rw [hw] at hflush
            cases outcome with
            | ok _ => exact hflush.trans (between.follows_append record)
            | error e => exact hflush
        · exact writer.follows_append record

theorem follows_close : Sink.Follows writer.sink (writer.close : Except _ ι × _).2.sink := by
  have hflush := writer.follows_flush
  rw [close]
  cases hw : writer.flush with
  | mk outcome after =>
    rw [hw] at hflush
    cases outcome with
    | error e => exact hflush
    | ok _ =>
      dsimp only
      cases Sink.finish after.sink with
      | ok inner => exact hflush
      | error cause => exact hflush

end Following

/-- The writer over a sink that takes everything has written the frames that are due, and nothing
has failed if all blocks have frames. -/
structure Delivers (writer : Writer σ) (blocks : List Block)
    (outcome : Except ArchiveError Unit × Writer σ) : Prop where
  taken_eq : Sink.taken outcome.2.sink =
    Sink.taken writer.sink ++ Frame.encodeAll (writer.options.dueFrames blocks)
  takesAll : Sink.TakesAll outcome.2.sink
  count_eq : outcome.2.blocksWritten =
    writer.blocksWritten + (writer.options.dueFrames blocks).length
  ok_of_due : (writer.options.dueFrames blocks).length = blocks.length → outcome.1 = .ok ()

theorem delivers_writeBlocks {writer : Writer σ} (h : Sink.TakesAll writer.sink)
    (blocks : List Block) : writer.Delivers blocks (writer.writeBlocks blocks) := by
  induction blocks generalizing writer with
  | nil =>
    exact {
      taken_eq := (List.append_nil _).symm
      takesAll := h
      count_eq := rfl
      ok_of_due := fun _ => rfl }
  | cons block blocks ih =>
    rw [writeBlocks]
    cases hdue : writer.options.dueFrame? block with
    | none =>
      obtain ⟨e, hw⟩ := writeBlock_of_none hdue
      have hframes : writer.options.dueFrames (block :: blocks) = [] := by
        rw [WriterOptions.dueFrames, hdue]
      rw [hw]
      exact {
        taken_eq := by
          rw [hframes]
          exact (List.append_nil _).symm
        takesAll := h
        count_eq := by
          rw [hframes]
          rfl
        ok_of_due := by
          intro hlen
          rw [hframes] at hlen
          cases hlen }
    | some frame =>
      obtain ⟨sink, hparts, hbytes, hmore⟩ := h.writeParts_eq frame.parts
      have hframes : writer.options.dueFrames (block :: blocks) =
          frame :: writer.options.dueFrames blocks := by
        rw [WriterOptions.dueFrames, hdue]
      have hrest :
          Delivers { writer with sink, blocksWritten := writer.blocksWritten + 1 } blocks _ :=
        ih hmore
      rw [writeBlock_of_some hdue, hparts]
      exact {
        taken_eq := by
          rw [hrest.taken_eq, hframes, Frame.encodeAll_cons, ← List.append_assoc]
          dsimp only
          rw [hbytes]
          rfl
        takesAll := hrest.takesAll
        count_eq := by
          rw [hrest.count_eq, hframes, List.length_cons]
          dsimp only
          omega
        ok_of_due := by
          intro hlen
          rw [hframes, List.length_cons, List.length_cons] at hlen
          exact hrest.ok_of_due (Nat.succ_injective hlen) }

end Writer

end PlaneArchive
