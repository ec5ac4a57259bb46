import Mathlib.Data.List.Induction
import PlaneArchive.Block
import PlaneArchive.Contents
import PlaneArchive.Proofs.Padding

/-! # Blocks of records

A block that was filled with records holds their padded bytes and their entries in order, and the
records can be cut out of its payload along the entries.
-/
namespace PlaneArchive

/-- The zero bytes that fill up the last page of a record. -/
def FileRecord.filler (page : ℕ) (record : FileRecord) : Bytes :=
  Bytes.zeros (roundUp record.content.length page - record.content.length)

/-- A record as it stands in a payload. -/
def FileRecord.padded (page : ℕ) (record : FileRecord) : Bytes :=
  record.content ++ record.filler page

def FileRecord.entry (record : FileRecord) : FileMetadata :=
  .ofRecord record.name (UInt32.ofNat record.content.length)

theorem FileRecord.length_padded {page : ℕ} (hp : 0 < page) (record : FileRecord) :
    (record.padded page).length = roundUp record.content.length page := by
  have := le_roundUp hp record.content.length
  simp only [padded, filler, Bytes.zeros, List.length_append, List.length_replicate]
  omega

namespace Block

/-- The block that records fill, each padded to whole pages. -/
def ofRecords (page : ℕ) (records : List FileRecord) : Block :=
  records.foldl
    (fun block record => block.push (segment record (roundUp record.content.length page)))
    .empty

variable {page : ℕ} {records : List FileRecord} {record : FileRecord} {block : Block}

@[simp] theorem payload_push (segment : Segment) :
    (block.push segment).payload = block.payload ++ segment.bytes := by
  simp [push, payload]

@[simp] theorem files_push (segment : Segment) :
    (block.push segment).files = block.files ++ [segment.entry] := by
  simp [push, files]

theorem ofRecords_append_singleton (page : ℕ) (records : List FileRecord) (record : FileRecord) :
    ofRecords page (records ++ [record]) =
      (ofRecords page records).push (segment record (roundUp record.content.length page)) := by
  rw [ofRecords, List.foldl_append]
  rfl

theorem payload_ofRecords (page : ℕ) (records : List FileRecord) :
    (ofRecords page records).payload = records.flatMap (FileRecord.padded page) := by
  induction records using List.reverseRecOn with
  | nil => rfl
  | append_singleton records record ih =>
    rw [ofRecords_append_singleton, payload_push, ih, List.flatMap_append, List.flatMap_singleton]
    rfl

theorem files_ofRecords (page : ℕ) (records : List FileRecord) :
    (ofRecords page records).files = records.map FileRecord.entry := by
  induction records using List.reverseRecOn with
  | nil => rfl
  | append_singleton records record ih =>
    rw [ofRecords_append_singleton, files_push, ih, List.map_append]
    rfl

theorem len_ofRecords_append_singleton (hp : 0 < page) :
    (ofRecords page (records ++ [record])).len =
      (ofRecords page records).len + roundUp record.content.length page := by
  rw [← length_payload, ← length_payload, ofRecords_append_singleton, payload_push,
    List.length_append]
  congr 1
  exact record.length_padded hp

theorem dvd_len_ofRecords (hp : 0 < page) (records : List FileRecord) :
    page ∣ (ofRecords page records).len := by
  induction records using List.reverseRecOn with
  | nil => exact dvd_zero page
  | append_singleton records record ih =>
    rw [len_ofRecords_append_singleton hp]
    exact Nat.dvd_add ih (dvd_roundUp _ _)

theorem isEmpty_ofRecords : (ofRecords page records).isEmpty = records.isEmpty := by
  induction records using List.reverseRecOn with
  | nil => rfl
  | append_singleton records record _ =>
    rw [ofRecords_append_singleton]
    simp [isEmpty, push]

theorem lt_of_le_sizeLimit {len : ℕ} (h : len ≤ sizeLimit) : len < UInt32.size :=
  lt_of_le_of_lt h (by decide)

theorem toNat_of_paddedSize {len page padded : UInt64} (h : paddedSize len page = .ok padded) :
    padded.toNat = roundUp len.toNat page.toNat := by
  unfold paddedSize at h
  split at h
  · cases h
  · split at h
    · next hsome =>
      cases h
      exact (paddedLen_eq_some_iff.mp hsome).2
    · cases h

theorem paddedSize_of_lt {len : ℕ} {page : UInt64} (hp : page ≠ 0)
    (hs : roundUp len page.toNat < UInt64.size) :
    ∃ padded, paddedSize (UInt64.ofNat len) page = .ok padded ∧
      padded.toNat = roundUp len page.toNat := by
  have hword : (UInt64.ofNat len).toNat = len :=
    UInt64.toNat_ofNat_of_lt ((le_roundUp (toNat_pos_of_ne_zero hp) len).trans_lt hs)
  have hsome : paddedLen (UInt64.ofNat len) page =
      some (UInt64.ofNat (roundUp len page.toNat)) := by
    rw [paddedLen_of_lt hp (by rwa [hword]), hword]
  refine ⟨UInt64.ofNat (roundUp len page.toNat), ?_, UInt64.toNat_ofNat_of_lt hs⟩
  rw [paddedSize, if_neg hp, hsome]

end Block

namespace Frame

variable {page : ℕ} {records : List FileRecord}

/-- Cutting along the entries gives the records back, and leaves only their fillers and the bytes
behind them. -/
theorem cut_padded (hp : 0 < page) (hs : ∀ record ∈ records, record.content.length < UInt32.size)
    (rest : Bytes) :
    cut page (records.map FileRecord.entry) (records.flatMap (FileRecord.padded page) ++ rest) =
      ⟨records, records.flatMap (FileRecord.filler page), rest⟩ := by
  induction records with
  | nil => rfl
  | cons record records ih =>
    have hsize : record.entry.size.toNat = record.content.length :=
      UInt32.toNat_ofNat_of_lt (hs record List.mem_cons_self)
    have hlen := record.length_padded hp
    have htail := ih fun r h => hs r (List.mem_cons_of_mem _ h)
    rw [List.map_cons, List.flatMap_cons, List.append_assoc, cut, hsize, ← hlen,
      List.drop_left, List.take_left, htail]
    simp [FileRecord.padded, FileRecord.entry, FileMetadata.ofRecord, FileMetadata.name]

end Frame

end PlaneArchive
