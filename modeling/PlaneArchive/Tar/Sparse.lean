import PlaneArchive.Tar.Header

/-! # Sparse files

A sparse file stores only its areas that are not holes. A table in the header, continued in
further blocks, gives offset and length of each area. The table is checked; the content is not
put together, since only plain files are taken from a tar.
-/
namespace PlaneArchive.Tar

inductive TarFault where
  | shortHeader
  /-- The file ends before the block where the next header is due. -/
  | shortSkip
  | shortContent
  | badChecksum
  | badNumber
  /-- Two entries of one kind describe the same next entry. -/
  | repeatedDescription
  /-- Nothing follows an entry that describes the next one. -/
  | danglingDescription
  /-- A sparse file in a dialect that has none, or with a table that does not fit its sizes. -/
  | badSparseTable
  deriving DecidableEq, Repr

structure SparseProgress where
  stored : Nat
  /-- Stored bytes that no area has claimed. -/
  unclaimed : Nat
  /-- End of the last area in the whole file. -/
  reached : Nat
  deriving DecidableEq, Repr

namespace SparseProgress

/-- Takes an area of the table into account: it starts at a whole block of the stored bytes and
not before the end of the last one. -/
def addArea (progress : SparseProgress) (offset length : Bytes) :
    Except TarFault SparseProgress :=
  if offset.headD 0 = 0 ∨ length.headD 0 = 0 then .ok progress
  else
    match number? offset, number? length with
    | some offset, some length =>
      if length ≠ 0 ∧ (progress.stored - progress.unclaimed) % blockSize ≠ 0 then
        .error .badSparseTable
      else if offset < progress.reached ∨ UInt64.size ≤ offset + length
          ∨ progress.unclaimed < length then
        .error .badSparseTable
      else
        .ok { progress with
          unclaimed := progress.unclaimed - length
          reached := offset + length }
    | _, _ => .error .badNumber

def addAreas (progress : SparseProgress) : (count : Nat) → (table : Bytes) →
    Except TarFault SparseProgress
  | 0, _ => .ok progress
  | count + 1, table =>
    match progress.addArea (table.take 12) ((table.drop 12).take 12) with
    | .error fault => .error fault
    | .ok progress => addAreas progress count (table.drop 24)

end SparseProgress

/-- Reads the blocks that continue a table, and returns the bytes after them. -/
def continueTable (progress : SparseProgress) (bytes : Bytes) :
    Except TarFault (SparseProgress × Bytes) :=
  match _h : Bytes.split? blockSize bytes with
  | none => .error .shortHeader
  | some (block, rest) =>
    match progress.addAreas 21 block with
    | .error fault => .error fault
    | .ok progress =>
      if Bytes.slice 504 1 block = [1] then continueTable progress rest else .ok (progress, rest)
termination_by bytes.length
decreasing_by
  have := Bytes.length_rest_of_split? ‹_›
  simp only [blockSize] at this
  omega

/-- Reads the table that starts in the header, and returns the bytes after its last block. -/
def readTable (header : Header) (size : Nat) (bytes : Bytes) :
    Except TarFault (SparseProgress × Bytes) :=
  match SparseProgress.addAreas ⟨size, size, 0⟩ 4 (header.field 386 96) with
  | .error fault => .error fault
  | .ok progress =>
    if header.field 482 1 = [1] then continueTable progress bytes else .ok (progress, bytes)

/-- Checks the table of a sparse file whose areas take `size` bytes, and returns the bytes after
the table. The areas must take all stored bytes and reach exactly to the end of the file. -/
def checkSparse (header : Header) (size : Nat) (bytes : Bytes) : Except TarFault Bytes :=
  if header.isGnu then
    match readTable header size bytes with
    | .error fault => .error fault
    | .ok (progress, rest) =>
      match number? (header.field 483 12) with
      | none => .error .badNumber
      | some whole =>
        if progress.reached = whole ∧ progress.unclaimed = 0 then .ok rest
        else .error .badSparseTable
  else .error .badSparseTable

theorem length_of_continueTable {progress progress' : SparseProgress} {bytes rest : Bytes}
    (h : continueTable progress bytes = .ok (progress', rest)) : rest.length ≤ bytes.length := by
  fun_induction continueTable progress bytes <;> grind [→ Bytes.length_rest_of_split?]

theorem length_of_checkSparse {header : Header} {size : Nat} {bytes rest : Bytes}
    (h : checkSparse header size bytes = .ok rest) : rest.length ≤ bytes.length := by
  simp only [checkSparse, readTable] at h
  grind [→ length_of_continueTable]

end PlaneArchive.Tar
