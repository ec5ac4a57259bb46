import PlaneArchive.Error

/-! # Byte planes

A buffer of `n` records of `page` bytes is stored plane by plane: byte 0 of every record, then
byte 1 of every record, and so on. This module states the rearrangement as a plain index mapping
and says which requests are refused.
-/
namespace PlaneArchive

/-- How a transposition is carried out. The result depends on neither number. -/
structure TransposeOptions where
  /-- Edge length of the square tiles, in records and in bytes. -/
  tileSize : Nat := 256
  /-- Number of workers that share the tiles. -/
  workers : Nat := 1
  deriving DecidableEq, Repr

namespace TransposeOptions

def validate (options : TransposeOptions) : Except ArchiveError Unit :=
  if options.tileSize = 0 then .error (.invalidConfig .zeroTileSize)
  else if options.workers = 0 then .error (.invalidConfig .noTransposeWorkers)
  else .ok ()

end TransposeOptions

namespace Transpose

/-- Byte `b` of record `r`, for all records, for all `b`: the byte at `b * n + r` of the result is
the byte at `r * page + b` of `src`, where `n` is the number of records. -/
def planes (page : Nat) (src : Bytes) : Bytes :=
  let bytes := src.toArray
  let records := bytes.size / page
  (List.range bytes.size).map fun i => bytes.getD (i % records * page + i / records) 0

def checkShape (page length : Nat) : Except ArchiveError Unit :=
  if page = 0 then .error (.invalidConfig .zeroPageSize)
  else if length % page ≠ 0 then .error (.invalidConfig (.incompletePage length page))
  else .ok ()

@[simp] theorem length_planes (page : Nat) (src : Bytes) :
    (planes page src).length = src.length := by
  simp [planes]

end Transpose
end PlaneArchive
