import PlaneArchive.Proofs.Block.Records
import PlaneArchive.Proofs.Frame.Reading
import PlaneArchive.Proofs.Transpose.IndexMapping
import PlaneArchive.Proofs.Transpose.Inverse
import PlaneArchive.Writer.Basic

/-! # The frames of blocks

Under valid options a block of whole pages has a frame, and the records of the block can be
recovered from that frame alone.
-/
namespace PlaneArchive.WriterOptions

variable {options : WriterOptions} {block : Block} {frame : Frame} {records : List FileRecord}

abbrev page (options : WriterOptions) : ℕ := options.pageSize.toNat

/-- The padded payload in the arrangement of the options, without regard to how it is made. -/
def arranged (options : WriterOptions) (payload : Bytes) : Bytes :=
  match options.layout with
  | .plain => payload
  | .transposed => Transpose.planes options.page payload

def frameOf (options : WriterOptions) (block : Block) : Frame where
  header := Header.ofBlock options.format options.layout (UInt32.ofNat block.len) options.pageSize
    block.files
  payload := options.arranged block.payload

theorem validate_eq_ok_iff :
    options.validate = .ok () ↔ options.pageSize ≠ 0 ∧ options.blockThreshold ≠ 0 ∧
      options.transpose.tileSize ≠ 0 ∧ options.transpose.workers ≠ 0 := by
  unfold validate TransposeOptions.validate
  by_cases hp : options.pageSize = 0
  · simp [hp]
  by_cases hb : options.blockThreshold = 0
  · simp [hp, hb]
  by_cases ht : options.transpose.tileSize = 0
  · simp [hp, hb, ht]
  by_cases hw : options.transpose.workers = 0
  · simp [hp, hb, ht, hw]
  · simp [hp, hb, ht, hw]

theorem page_pos (hv : options.validate = .ok ()) : 0 < options.page :=
  Nat.pos_of_ne_zero fun h => (validate_eq_ok_iff.mp hv).1 (UInt32.toNat_inj.mp h)

@[simp] theorem length_arranged (options : WriterOptions) (payload : Bytes) :
    (options.arranged payload).length = payload.length := by
  unfold arranged
  split
  · rfl
  · exact Transpose.length_planes _ _

theorem arrange_eq_arranged (hv : options.validate = .ok ()) {payload : Bytes}
    (hd : options.page ∣ payload.length) :
    options.arrange payload = .ok (options.arranged payload) := by
  obtain ⟨_, _, ht, hw⟩ := validate_eq_ok_iff.mp hv
  unfold arrange arranged
  cases options.layout with
  | plain => rfl
  | transposed => exact Transpose.run_of_sound ⟨ht, hw, (page_pos hv).ne', hd⟩

theorem frame_eq_frameOf (hv : options.validate = .ok ()) (hd : options.page ∣ block.len)
    (hl : block.len ≤ Block.sizeLimit) : options.frame block = .ok (options.frameOf block) := by
  have hlen : (options.arranged block.payload).length = block.len := by
    rw [length_arranged, block.length_payload]
  rw [← block.length_payload] at hd
  simp only [frame, arrange_eq_arranged hv hd, hlen, Nat.not_lt.mpr hl, if_false, frameOf]

theorem payloadSize_of_frame (h : options.frame block = .ok frame) :
    frame.header.payloadSize.toNat = frame.payload.length := by
  unfold WriterOptions.frame at h
  split at h
  · cases h
  · next payload _ =>
    split at h
    · cases h
    · next hl =>
      cases h
      exact UInt32.toNat_ofNat_of_lt (Block.lt_of_le_sizeLimit (Nat.not_lt.mp hl))

/-- The payload of a frame is put back into the order of the records. -/
theorem plainPayload_frameOf (hd : options.page ∣ block.len) :
    (options.frameOf block).plainPayload = block.payload := by
  rw [← block.length_payload] at hd
  have hlayout : (options.frameOf block).header.layout = options.layout := by
    simp [frameOf, Header.ofBlock, Header.layout, Layout.ofCode?_code]
  have hpage : (options.frameOf block).header.pageSize.toNat = options.page := rfl
  unfold Frame.plainPayload
  rw [hlayout, hpage]
  cases hlay : options.layout with
  | plain => simp [frameOf, arranged, hlay]
  | transposed =>
    have harr : (options.frameOf block).payload = Transpose.planes options.page block.payload := by
      simp [frameOf, arranged, hlay]
    simp only [harr]
    exact Transpose.planes_length_div_page hd

/-- The frame of a block of records gives back the records, with nothing but zero bytes between
them and nothing behind them. -/
theorem recover_frameOf (hp : 0 < options.page)
    (hs : ∀ record ∈ records, record.content.length < UInt32.size) :
    (options.frameOf (Block.ofRecords options.page records)).recover =
      ⟨records, records.flatMap (FileRecord.filler options.page), []⟩ := by
  have hcut := Frame.cut_padded hp hs []
  rw [List.append_nil] at hcut
  rw [Frame.recover, plainPayload_frameOf (Block.dvd_len_ofRecords hp records),
    Block.payload_ofRecords]
  change Frame.cut options.page (Block.ofRecords options.page records).files _ = _
  rw [Block.files_ofRecords, hcut]

end PlaneArchive.WriterOptions
