import PlaneArchive.Padding
import PlaneArchive.Transpose.Basic

/-! # Tiled transposition

The index space of records and byte offsets is cut into square tiles. Every tile owns its own
runs of the destination, so the tiles may be copied in any order, by any number of workers. The
tiling serves locality only: the outcome is the index mapping of `Transpose.planes`.
-/
namespace PlaneArchive.Transpose

structure Run where
  start : Nat
  length : Nat
  deriving DecidableEq, Repr

/-- One unit of work. The run at position `k` lies in the plane of offset `firstOffset + k` and
holds the records from `firstRecord` on. -/
structure Tile where
  firstRecord : Nat
  firstOffset : Nat
  runs : Array Run
  deriving DecidableEq, Repr

structure Grid where
  records : Nat
  page : Nat
  tileSize : Nat
  deriving DecidableEq, Repr

namespace Grid

def recordTiles (grid : Grid) : Nat := pieces grid.records grid.tileSize

def offsetTiles (grid : Grid) : Nat := pieces grid.page grid.tileSize

def tileCount (grid : Grid) : Nat := grid.recordTiles * grid.offsetTiles

/-- The tile with index `id` before it owns any run; tiles are numbered row by row. -/
def bareTile (grid : Grid) (id : Nat) : Tile where
  firstRecord := id / grid.offsetTiles * grid.tileSize
  firstOffset := id % grid.offsetTiles * grid.tileSize
  runs := #[]

/-- The index of the tile that owns piece `recordTile` of the plane of `offset`. -/
def tileIndex (grid : Grid) (offset recordTile : Nat) : Nat :=
  recordTile * grid.offsetTiles + offset / grid.tileSize

/-- Piece `recordTile` of the plane of `offset`; the last piece of a plane may be shorter. -/
def run (grid : Grid) (offset recordTile : Nat) : Run where
  start := offset * grid.records + recordTile * grid.tileSize
  length := min grid.tileSize (grid.records - recordTile * grid.tileSize)

def carvePlane (grid : Grid) (tiles : Array Tile) (offset : Nat) : Array Tile :=
  (List.range grid.recordTiles).foldl (fun tiles recordTile =>
    tiles.modify (grid.tileIndex offset recordTile) fun tile =>
      { tile with runs := tile.runs.push (grid.run offset recordTile) }) tiles

def tiles (grid : Grid) : Array Tile :=
  (List.range grid.page).foldl grid.carvePlane ((Array.range grid.tileCount).map grid.bareTile)

end Grid

/-- The index in the source of the first byte of the run at position `k` of a tile. -/
def Tile.sourceIndex (tile : Tile) (page k : Nat) : Nat :=
  tile.firstRecord * page + tile.firstOffset + k

/-- Fills a run with every `page`-th byte of the source from `index` on. -/
def copyRun (src : Array UInt8) (page index : Nat) (run : Run) (dst : Array UInt8) :
    Array UInt8 :=
  (List.range run.length).foldl (fun dst i =>
    dst.setIfInBounds (run.start + i) (src.getD (index + i * page) 0)) dst

def copyTile (src : Array UInt8) (page : Nat) (dst : Array UInt8) (tile : Tile) : Array UInt8 :=
  tile.runs.toList.zipIdx.foldl (fun dst (run, k) =>
    copyRun src page (tile.sourceIndex page k) run dst) dst

/-- Copies the tiles, in the order in which the workers happen to process them. -/
def copyTiles (src : Array UInt8) (page : Nat) (tiles : List Tile) : Array UInt8 :=
  tiles.foldl (copyTile src page) (Array.replicate src.size 0)

/-- The order in which the tiles are handed to the workers. -/
def schedule (options : TransposeOptions) (page length : Nat) : List Tile :=
  (Grid.tiles ⟨length / page, page, options.tileSize⟩).toList

/-- Transposes `src`, viewed as records of `page` bytes, after checking the request. -/
def run (options : TransposeOptions) (page : Nat) (src : Bytes) : Except ArchiveError Bytes := do
  options.validate
  checkShape page src.length
  let bytes := src.toArray
  if bytes.size / page = 0 then return src
  return (copyTiles bytes page (schedule options page bytes.size)).toList

end PlaneArchive.Transpose
