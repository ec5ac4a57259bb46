import Mathlib.Data.List.Sort
import PlaneArchive.Proofs.Padding
import PlaneArchive.Transpose.Tiles

/-! # What the tiles own

Carving hands the pieces of the planes to the tiles in the order of the byte offsets. The tile in
row `i` and column `j` of the grid therefore owns piece `i` of every plane of its column, in
order, and nothing else.
-/
namespace PlaneArchive.Transpose

/-- A place in rows of equal length is below the end of the last row. -/
theorem mul_add_lt_mul {i rows j width : ℕ} (hi : i < rows) (hj : j < width) :
    i * width + j < rows * width := by
  rw [Nat.mul_comm i, Nat.mul_comm rows, Nat.mul_comm width rows]
  exact Nat.mul_add_lt_mul_of_lt_of_lt hi hj

theorem div_mod_of_lt {i j width : ℕ} (hj : j < width) :
    (i * width + j) / width = i ∧ (i * width + j) % width = j := by
  rw [Nat.div_mod_unique (Nat.zero_lt_of_lt hj), Nat.mul_comm width, Nat.add_comm]
  exact ⟨rfl, hj⟩

namespace Grid

variable (grid : Grid)

/-- The byte offsets whose planes pass through column `column`, ascending. -/
def columnOffsets (column : ℕ) : List ℕ :=
  List.range' (column * grid.tileSize)
    (min grid.tileSize (grid.page - column * grid.tileSize))

def fullTile (row column : ℕ) : Tile where
  firstRecord := row * grid.tileSize
  firstOffset := column * grid.tileSize
  runs := ((grid.columnOffsets column).map fun offset => grid.run offset row).toArray

variable {grid}

theorem mem_columnOffsets (ht : 0 < grid.tileSize) {column offset : ℕ} :
    offset ∈ grid.columnOffsets column ↔
      offset < grid.page ∧ offset / grid.tileSize = column := by
  rw [columnOffsets, List.mem_range'_1, Nat.div_eq_iff ht]
  generalize column * grid.tileSize = first
  omega

theorem filter_range_eq_columnOffsets (ht : 0 < grid.tileSize) (column : ℕ) :
    (List.range grid.page).filter (fun offset => offset / grid.tileSize = column) =
      grid.columnOffsets column := by
  apply List.Pairwise.eq_of_mem_iff (r := (· < ·))
  · exact List.pairwise_lt_range.filter _
  · exact List.pairwise_lt_range'
  · intro offset
    rw [mem_columnOffsets ht, List.mem_filter, List.mem_range, decide_eq_true_eq]

theorem tileIndex_eq_iff {offset recordTile id : ℕ}
    (hc : offset / grid.tileSize < grid.offsetTiles) :
    grid.tileIndex offset recordTile = id ↔
      offset / grid.tileSize = id % grid.offsetTiles ∧ recordTile = id / grid.offsetTiles := by
  unfold tileIndex
  constructor
  · rintro rfl
    obtain ⟨hrow, hcolumn⟩ := div_mod_of_lt (i := recordTile) hc
    exact ⟨hcolumn.symm, hrow.symm⟩
  · rintro ⟨hoff, rfl⟩
    rw [hoff]
    exact Nat.div_add_mod' id grid.offsetTiles

private def pushRun (tile : Tile) (run : Run) : Tile := { tile with runs := tile.runs.push run }

private theorem foldl_pushRun (runs : List Run) (tile : Tile) :
    runs.foldl pushRun tile = { tile with runs := tile.runs ++ runs.toArray } := by
  induction runs generalizing tile with
  | nil => simp
  | cons run runs ih =>
    rw [List.foldl_cons, ih]
    simp [pushRun]

/-- Pieces of one plane go to tiles in different rows, so a tile gets at most one of them. -/
theorem getElem?_foldl_push {offset id : ℕ} (hc : offset / grid.tileSize < grid.offsetTiles)
    {rows : List ℕ} (hnd : rows.Nodup) (tiles : Array Tile) :
    (rows.foldl (fun tiles recordTile =>
      tiles.modify (grid.tileIndex offset recordTile) fun tile =>
        { tile with runs := tile.runs.push (grid.run offset recordTile) }) tiles)[id]? =
    tiles[id]?.map fun tile =>
      if offset / grid.tileSize = id % grid.offsetTiles ∧ id / grid.offsetTiles ∈ rows then
        pushRun tile (grid.run offset (id / grid.offsetTiles))
      else tile := by
  -- A row that has been passed does not come again, so its tile is pushed to only here.
  induction rows generalizing tiles with
  | nil => simp
  | cons row rows ih =>
    obtain ⟨hne, hnd⟩ := List.nodup_cons.mp hnd
    rw [List.foldl_cons, ih hnd, Array.getElem?_modify]
    by_cases hi : grid.tileIndex offset row = id
    · obtain ⟨hcol, rfl⟩ := (tileIndex_eq_iff hc).mp hi
      rw [if_pos hi, Option.map_map]
      congr 1
      funext tile
      simp [hcol, hne, pushRun]
    · rw [if_neg hi]
      congr 1
      funext tile
      have : ¬ (offset / grid.tileSize = id % grid.offsetTiles ∧
          row = id / grid.offsetTiles) := fun h => hi ((tileIndex_eq_iff hc).mpr h)
      by_cases hcol : offset / grid.tileSize = id % grid.offsetTiles
      · have hrn : id / grid.offsetTiles ≠ row := fun h => this ⟨hcol, h.symm⟩
        simp [hcol, hrn]
      · simp [hcol]

theorem getElem?_carvePlane {tiles : Array Tile} {offset id : ℕ}
    (hc : offset / grid.tileSize < grid.offsetTiles) (hid : id < grid.tileCount) :
    (grid.carvePlane tiles offset)[id]? = tiles[id]?.map fun tile =>
      if offset / grid.tileSize = id % grid.offsetTiles then
        pushRun tile (grid.run offset (id / grid.offsetTiles))
      else tile := by
  have hrow : id / grid.offsetTiles < grid.recordTiles :=
    Nat.div_lt_of_lt_mul (by rwa [Nat.mul_comm])
  rw [carvePlane, getElem?_foldl_push hc List.nodup_range tiles]
  simp [hrow]

theorem getElem?_foldl_carvePlane {id : ℕ} (hid : id < grid.tileCount) (offsets : List ℕ)
    (ho : ∀ offset ∈ offsets, offset / grid.tileSize < grid.offsetTiles) (tiles : Array Tile) :
    (offsets.foldl grid.carvePlane tiles)[id]? = tiles[id]?.map fun tile =>
      ((offsets.filter fun offset => offset / grid.tileSize = id % grid.offsetTiles).map
        fun offset => grid.run offset (id / grid.offsetTiles)).foldl pushRun tile := by
  induction offsets generalizing tiles with
  | nil => simp
  | cons offset offsets ih =>
    rw [List.foldl_cons, ih (fun o h => ho o (List.mem_cons_of_mem _ h)),
      getElem?_carvePlane (ho offset List.mem_cons_self) hid, Option.map_map]
    congr 1
    funext tile
    by_cases hcol : offset / grid.tileSize = id % grid.offsetTiles
    · simp [hcol]
    · simp [hcol]

theorem size_carvePlane (tiles : Array Tile) (offset : ℕ) :
    (grid.carvePlane tiles offset).size = tiles.size := by
  unfold carvePlane
  induction List.range grid.recordTiles generalizing tiles with
  | nil => rfl
  | cons row rows ih => rw [List.foldl_cons, ih, Array.size_modify]

theorem size_foldl_carvePlane (offsets : List ℕ) (tiles : Array Tile) :
    (offsets.foldl grid.carvePlane tiles).size = tiles.size := by
  induction offsets generalizing tiles with
  | nil => rfl
  | cons offset offsets ih => rw [List.foldl_cons, ih, size_carvePlane]

theorem size_tiles : grid.tiles.size = grid.tileCount := by
  rw [tiles, size_foldl_carvePlane]
  simp

/-- After carving, the tile with index `id` is the full tile of its row and column. -/
theorem getElem?_tiles (ht : 0 < grid.tileSize) {id : ℕ} (hid : id < grid.tileCount) :
    grid.tiles[id]? =
      some (grid.fullTile (id / grid.offsetTiles) (id % grid.offsetTiles)) := by
  have hoff : ∀ offset ∈ List.range grid.page, offset / grid.tileSize < grid.offsetTiles := by
    intro offset ho
    rw [offsetTiles, lt_pieces_iff ht]
    exact lt_of_le_of_lt (Nat.div_mul_le_self _ _) (List.mem_range.mp ho)
  rw [tiles, getElem?_foldl_carvePlane hid _ hoff]
  simp [hid, bareTile, fullTile, foldl_pushRun, filter_range_eq_columnOffsets ht]

theorem getElem?_tiles_of_lt (ht : 0 < grid.tileSize) {row column : ℕ}
    (hr : row < grid.recordTiles) (hc : column < grid.offsetTiles) :
    grid.tiles[row * grid.offsetTiles + column]? = some (grid.fullTile row column) := by
  obtain ⟨hrow, hcolumn⟩ := div_mod_of_lt (i := row) hc
  rw [getElem?_tiles ht (mul_add_lt_mul hr hc), hrow, hcolumn]

theorem exists_row_column (ht : 0 < grid.tileSize) {id : ℕ} {tile : Tile}
    (h : grid.tiles[id]? = some tile) :
    ∃ row < grid.recordTiles, ∃ column < grid.offsetTiles,
      id = row * grid.offsetTiles + column ∧ tile = grid.fullTile row column := by
  have hid : id < grid.tileCount := by
    rw [← size_tiles]
    exact (Array.getElem?_eq_some_iff.mp h).1
  have hpos : 0 < grid.offsetTiles := by
    rw [Nat.pos_iff_ne_zero]
    intro hz
    simp [tileCount, hz] at hid
  rw [getElem?_tiles ht hid, Option.some.injEq] at h
  exact ⟨_, Nat.div_lt_of_lt_mul (by rwa [Nat.mul_comm]), _, Nat.mod_lt _ hpos,
    (Nat.div_add_mod' id _).symm, h.symm⟩

theorem mem_tiles_iff (ht : 0 < grid.tileSize) {tile : Tile} :
    tile ∈ grid.tiles.toList ↔
      ∃ row < grid.recordTiles, ∃ column < grid.offsetTiles, tile = grid.fullTile row column := by
  rw [List.mem_iff_getElem?]
  constructor
  · rintro ⟨id, h⟩
    rw [Array.getElem?_toList] at h
    obtain ⟨row, hr, column, hc, _, htile⟩ := exists_row_column ht h
    exact ⟨row, hr, column, hc, htile⟩
  · rintro ⟨row, hr, column, hc, rfl⟩
    refine ⟨row * grid.offsetTiles + column, ?_⟩
    rw [Array.getElem?_toList]
    exact getElem?_tiles_of_lt ht hr hc

end Grid

end PlaneArchive.Transpose
