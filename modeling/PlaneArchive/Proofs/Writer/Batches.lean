import PlaneArchive.Proofs.Writer.Frames
import PlaneArchive.Proofs.Writer.Packing
import PlaneArchive.Proofs.Writer.Partition

/-! # Blocks as batches of records

The blocks of a packing hold the batches of the greedy partition of the written records. When every
record fits a frame, these are all written records in order, each once, and no block is larger than
a frame can be.
-/
namespace PlaneArchive

def Request.record? : Request → Option FileRecord
  | .write record => some record
  | .flush | .close => none

def written (requests : List Request) : List FileRecord := requests.filterMap Request.record?

theorem written_append (requests more : List Request) :
    written (requests ++ more) = written requests ++ written more := List.filterMap_append

/-- A record whose padded size fits a size field. -/
def FileRecord.Fits (page : ℕ) (record : FileRecord) : Prop :=
  roundUp record.content.length page ≤ Block.sizeLimit

instance (page : ℕ) (record : FileRecord) : Decidable (record.Fits page) :=
  inferInstanceAs (Decidable (_ ≤ _))

namespace WriterOptions

/-- How records are divided among blocks. -/
def batchRule (options : WriterOptions) (limit : ℕ) : BatchRule FileRecord where
  size record := roundUp record.content.length options.page
  limit := limit
  threshold := options.blockThreshold

/-- The records of the blocks that requests make, and of the block in the making. -/
def batches (options : WriterOptions) (limit : ℕ) (requests : List Request) :
    Partition FileRecord :=
  (options.batchRule limit).partition (requests.map Request.record?)

variable {options : WriterOptions} {limit : ℕ} {record : FileRecord} {held : Partition FileRecord}

section Fit

variable (hv : options.validate = .ok ())
include hv

theorem pageSize_toUInt64_ne_zero : options.pageSize.toUInt64 ≠ 0 := by
  intro h
  have hpos := page_pos hv
  have hpage : options.pageSize.toUInt64.toNat = options.page := UInt32.toNat_toUInt64 _
  rw [← hpage, h] at hpos
  exact Nat.lt_irrefl 0 hpos

theorem paddedSize_eq (h : roundUp record.content.length options.page < UInt64.size) :
    ∃ padded, Block.paddedSize (UInt64.ofNat record.content.length)
        options.pageSize.toUInt64 = .ok padded ∧
      padded.toNat = roundUp record.content.length options.page := by
  have hpage : options.pageSize.toUInt64.toNat = options.page := UInt32.toNat_toUInt64 _
  rw [← hpage] at h ⊢
  exact Block.paddedSize_of_lt (pageSize_toUInt64_ne_zero hv) h

theorem fit_of_le (hlimit : limit ≤ Block.sizeLimit)
    (h : roundUp record.content.length options.page ≤ limit) :
    options.fit limit record = .ok (roundUp record.content.length options.page) := by
  have hword : roundUp record.content.length options.page < UInt64.size :=
    (Block.lt_of_le_sizeLimit (h.trans hlimit)).trans (by decide)
  obtain ⟨padded, hsize, hnat⟩ := paddedSize_eq hv hword
  rw [fit, hsize, ← hnat]
  dsimp only
  rw [if_neg]
  rw [hnat]
  exact Nat.not_lt.mpr h

theorem fit_of_lt (hword : roundUp record.content.length options.page < UInt64.size)
    (h : limit < roundUp record.content.length options.page) :
    options.fit limit record = .error (.recordTooLarge record.name record.content.length) := by
  obtain ⟨padded, hsize, hnat⟩ := paddedSize_eq hv hword
  rw [fit, hsize]
  dsimp only
  rw [if_pos]
  rw [hnat]
  exact h

omit hv in
/-- A record whose padded size is beyond the last word is refused for that reason. -/
theorem exists_fit_eq_error (hword : record.content.length < UInt64.size)
    (h : limit < roundUp record.content.length options.page) :
    ∃ e, options.fit limit record = .error e := by
  rw [fit]
  cases hsize : Block.paddedSize (UInt64.ofNat record.content.length)
      options.pageSize.toUInt64 with
  | error e => exact ⟨e, rfl⟩
  | ok padded =>
    have hnat := Block.toNat_of_paddedSize hsize
    have hcontent : (UInt64.ofNat record.content.length).toNat = record.content.length :=
      UInt64.toNat_ofNat_of_lt' hword
    rw [hcontent, UInt32.toNat_toUInt64] at hnat
    dsimp only
    rw [if_pos (hnat ▸ h)]
    exact ⟨_, rfl⟩

end Fit

theorem len_ofRecords (hp : 0 < options.page) (limit : ℕ) (batch : List FileRecord) :
    (Block.ofRecords options.page batch).len = (options.batchRule limit).total batch := by
  induction batch using List.reverseRecOn with
  | nil => rfl
  | append_singleton batch record ih =>
    rw [Block.len_ofRecords_append_singleton hp, ih, BatchRule.total_append_singleton]
    rfl

end WriterOptions

/-- A packing whose blocks hold the batches of a partition. -/
def Packing.ofPartition (page : ℕ) (partition : Partition FileRecord) : Packing where
  closed := partition.closed.map (Block.ofRecords page)
  current := Block.ofRecords page partition.current

/-- A cut that closes the batches by which one partition is ahead of another. -/
structure Cut.Advances (page : ℕ) (before after : Partition FileRecord) (cut : Cut) : Prop where
  closed_eq : after.closed.map (Block.ofRecords page) =
    before.closed.map (Block.ofRecords page) ++ cut.closed
  current_eq : Block.ofRecords page after.current = cut.current

namespace WriterOptions

variable {options : WriterOptions} {limit : ℕ} {record : FileRecord} {held : Partition FileRecord}

theorem advances_cutGrown (hp : 0 < options.page) (limit : ℕ) (grown : Partition FileRecord) :
    (options.cutGrown (Block.ofRecords options.page grown.current)).Advances options.page grown
      ((options.batchRule limit).endFilled grown) := by
  unfold cutGrown BatchRule.endFilled
  rw [len_ofRecords hp limit]
  change Cut.Advances _ _ (if options.blockThreshold ≤ _ then _ else _) _
  split
  · exact ⟨List.map_append, rfl⟩
  · exact ⟨(List.append_nil _).symm, rfl⟩

theorem advances_cut (hp : 0 < options.page) (limit : ℕ) (held : Partition FileRecord)
    (record : FileRecord) :
    (options.cut limit (Block.ofRecords options.page held.current) record
        (roundUp record.content.length options.page)).Advances options.page held
      ((options.batchRule limit).endFilled
        (((options.batchRule limit).makeRoom record held).put record)) := by
  have hfull : (!held.current.isEmpty && decide (limit < (options.batchRule limit).total
      held.current + roundUp record.content.length options.page)) = true ↔
        held.current.isEmpty = false ∧ (options.batchRule limit).limit <
          (options.batchRule limit).total held.current +
            (options.batchRule limit).size record := by
    rw [Bool.and_eq_true, Bool.not_eq_true', decide_eq_true_eq]
    rfl
  unfold cut BatchRule.makeRoom
  rw [Block.isEmpty_ofRecords, len_ofRecords hp limit]
  dsimp only
  split
  · next h =>
    rw [if_pos (hfull.mpr h)]
    have hsingle : Block.empty.push
        (Block.segment record (roundUp record.content.length options.page)) =
          Block.ofRecords options.page ([] ++ [record]) := rfl
    obtain ⟨hclosed, hcurrent⟩ := advances_cutGrown hp limit (held.endBatch.put record)
    constructor
    · rw [hclosed, hsingle]
      change (held.closed ++ [held.current]).map _ ++ _ = _
      rw [List.map_append, List.append_assoc]
      rfl
    · rw [hcurrent, hsingle]
      rfl
  · next h =>
    rw [if_neg (mt hfull.mp h), ← Block.ofRecords_append_singleton]
    obtain ⟨hclosed, hcurrent⟩ := advances_cutGrown hp limit (held.put record)
    exact ⟨hclosed, hcurrent⟩

theorem advances_cutOf (hv : options.validate = .ok ()) (hlimit : limit ≤ Block.sizeLimit)
    {request : Request} (hword : ∀ record ∈ written [request], record.content.length < UInt64.size)
    (held : Partition FileRecord) :
    (options.cutOf limit (Block.ofRecords options.page held.current) request).Advances options.page
      held ((options.batchRule limit).step held request.record?) := by
  cases request with
  | write record =>
    rw [Request.record?]
    rcases Nat.lt_or_ge limit (roundUp record.content.length options.page) with hlarge | hfits
    · obtain ⟨e, hfit⟩ := exists_fit_eq_error (hword record List.mem_cons_self) hlarge
      rw [cutOf, hfit, BatchRule.step_of_large (by exact hlarge)]
      exact ⟨(List.append_nil _).symm, rfl⟩
    · rw [cutOf, fit_of_le hv hlimit hfits, BatchRule.step_of_fits (by exact hfits)]
      exact advances_cut (page_pos hv) limit held record
  | flush => exact ⟨List.map_append, rfl⟩
  | close => exact ⟨List.map_append, rfl⟩

theorem batches_append_singleton (options : WriterOptions) (limit : ℕ) (requests : List Request)
    (request : Request) :
    options.batches limit (requests ++ [request]) =
      (options.batchRule limit).step (options.batches limit requests) request.record? := by
  rw [batches, List.map_append, List.map_singleton, BatchRule.partition_append_singleton]
  rfl

/-- Until a writer is closed, its blocks hold the batches of the greedy partition. -/
theorem pack_eq_batches (hv : options.validate = .ok ()) (hlimit : limit ≤ Block.sizeLimit)
    {requests : List Request} (hopen : Request.close ∉ requests)
    (hword : ∀ record ∈ written requests, record.content.length < UInt64.size) :
    options.pack limit requests = .ofPartition options.page (options.batches limit requests) := by
  induction requests using List.reverseRecOn with
  | nil => rfl
  | append_singleton requests request ih =>
    rw [List.mem_append, List.mem_singleton, not_or] at hopen
    rw [written_append] at hword
    have hearlier := ih hopen.1 fun record hmem => hword record (List.mem_append_left _ hmem)
    obtain ⟨hclosed, hcurrent⟩ := advances_cutOf hv hlimit
      (fun record hmem => hword record (List.mem_append_right _ hmem))
      (options.batches limit requests)
    have hstill : (request != .close) = true := by simpa using Ne.symm hopen.2
    rw [batches_append_singleton, pack_append_singleton, hearlier]
    change Packing.mk _ _ (request != .close) = Packing.mk _ _ true
    rw [hstill]
    exact congrArg₂ (fun closed current => Packing.mk closed current true) hclosed.symm
      hcurrent.symm

end WriterOptions

/-- Closed blocks and a pending block that hold batches of records, none too large for a frame. -/
structure Holds (page : ℕ) (closed : List Block) (current : Block)
    (batches : List (List FileRecord)) (pending : List FileRecord) : Prop where
  closed_eq : closed = batches.map (Block.ofRecords page)
  current_eq : current = Block.ofRecords page pending
  closed_le : ∀ block ∈ closed, block.len ≤ Block.sizeLimit
  current_le : current.len ≤ Block.sizeLimit

namespace WriterOptions

variable {options : WriterOptions} {limit : ℕ} {requests : List Request}

theorem keeps_batches (hv : options.validate = .ok ()) (limit : ℕ) (requests : List Request) :
    (options.batchRule limit).Keeps (options.batches limit requests) :=
  BatchRule.keeps_partition (Nat.pos_of_ne_zero (validate_eq_ok_iff.mp hv).2.1) _

/-- The batches hold what was written, without the records that are too large. -/
theorem items_batches (options : WriterOptions) (limit : ℕ) (requests : List Request) :
    (options.batches limit requests).items = (written requests).filter fun record =>
      roundUp record.content.length options.page ≤ limit := by
  rw [batches, BatchRule.items_partition, List.reduceOption, List.filterMap_map]
  rfl

/-- No block of a greedy partition is larger than a frame can be. -/
theorem holds_batches (hv : options.validate = .ok ()) (hlimit : limit ≤ Block.sizeLimit)
    (requests : List Request) :
    let packing := Packing.ofPartition options.page (options.batches limit requests)
    Holds options.page packing.closed packing.current (options.batches limit requests).closed
      (options.batches limit requests).current := by
  have hkeeps := keeps_batches hv limit requests
  exact {
    closed_eq := rfl
    current_eq := rfl
    closed_le := by
      intro block hmem
      obtain ⟨batch, hbatch, rfl⟩ := List.mem_map.mp hmem
      rw [len_ofRecords (page_pos hv) limit]
      exact (hkeeps.closed_le batch hbatch).trans hlimit
    current_le := by
      change (Block.ofRecords options.page _).len ≤ _
      rw [len_ofRecords (page_pos hv) limit]
      exact hkeeps.current_le.trans hlimit }

theorem length_lt_of_fits (hv : options.validate = .ok ()) {record : FileRecord}
    (h : record.Fits options.page) : record.content.length < UInt64.size :=
  (Block.lt_of_le_sizeLimit ((le_roundUp (page_pos hv) _).trans h)).trans (by decide)

/-- As long as nothing is closed, blocks and pending block hold all records that were written. -/
theorem holds_pack (hv : options.validate = .ok ()) (hopen : Request.close ∉ requests)
    (hfit : ∀ record ∈ written requests, record.Fits options.page) :
    let packing := options.pack Block.sizeLimit requests
    packing.isOpen = true ∧
      ∃ batches pending, Holds options.page packing.closed packing.current batches pending ∧
        batches.flatten ++ pending = written requests := by
  have hpack := pack_eq_batches hv le_rfl hopen fun record hmem =>
    length_lt_of_fits hv (hfit record hmem)
  have hall : ((written requests).filter fun record =>
      roundUp record.content.length options.page ≤ Block.sizeLimit) = written requests :=
    List.filter_eq_self.mpr fun record hmem => decide_eq_true (hfit record hmem)
  have hitems := items_batches options Block.sizeLimit requests
  rw [hall] at hitems
  dsimp only
  rw [hpack]
  exact ⟨rfl, _, _, holds_batches hv le_rfl requests, hitems⟩

/-- Closing closes the pending block as one batch more. -/
theorem holds_pack_close (hv : options.validate = .ok ()) (hopen : Request.close ∉ requests)
    (hfit : ∀ record ∈ written requests, record.Fits options.page) :
    let packing := options.pack Block.sizeLimit (requests ++ [.close])
    ∃ batches, Holds options.page packing.closed packing.current batches [] ∧
      batches.flatten = written requests := by
  obtain ⟨hstill, held, last, hheld, hrecords⟩ := holds_pack hv hopen hfit
  have hclose : options.pack Block.sizeLimit (requests ++ [.close]) =
      ⟨(options.pack Block.sizeLimit requests).closed ++
        [(options.pack Block.sizeLimit requests).current], .empty, false⟩ := by
    rw [pack_append_singleton, Packing.perform, if_pos hstill]
    rfl
  dsimp only
  rw [hclose]
  refine ⟨held ++ [last], ?_, ?_⟩
  · exact {
      closed_eq := by rw [hheld.closed_eq, hheld.current_eq, List.map_append, List.map_singleton]
      current_eq := rfl
      closed_le := by
        intro block hmem
        rcases List.mem_append.mp hmem with hold | hnew
        · exact hheld.closed_le block hold
        · rw [List.mem_singleton.mp hnew]
          exact hheld.current_le
      current_le := Nat.zero_le _ }
  · rw [List.flatten_append, List.flatten_singleton, hrecords]

end WriterOptions

end PlaneArchive
