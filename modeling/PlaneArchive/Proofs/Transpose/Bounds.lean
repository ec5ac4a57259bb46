import PlaneArchive.Proofs.Transpose.Tiling

/-! # The tiles divide the destination

Every index of the destination lies in one run of one tile, and copying a tile stays inside source
and destination. As long as twice the length of the buffer fits a word, so does every number that
is computed on the way, whatever the edge of the tiles.
-/
namespace PlaneArchive.Transpose

namespace Grid

/-- How many bytes the grid covers. -/
def area (grid : Grid) : ℕ := grid.records * grid.page

/-- Run `k` of the tile with index `id`, which is piece `row` of the plane of the offset `k` steps
into column `column`. -/
structure Owned (grid : Grid) (id k : ℕ) (tile : Tile) (run : Run) (row column : ℕ) : Prop where
  row_lt : row < grid.recordTiles
  column_lt : column < grid.offsetTiles
  id_eq : id = row * grid.offsetTiles + column
  tile_eq : tile = grid.fullTile row column
  k_lt : k < grid.tileSize
  offset_lt : column * grid.tileSize + k < grid.page
  run_eq : run = grid.run (column * grid.tileSize + k) row

/-- The tile and the run in it that a destination index belongs to. -/
def owner (grid : Grid) (index : ℕ) : ℕ × ℕ :=
  (grid.tileIndex (index / grid.records) (index % grid.records / grid.tileSize),
    index / grid.records % grid.tileSize)

/-- The tiles hold the pieces of the planes in order, every index of the destination belongs to one
run of one tile, and copying a tile reads and writes inside the buffers. -/
structure Divides (grid : Grid) (tiles : List Tile) : Prop where
  length_eq : tiles.length = grid.tileCount
  tileIndex_lt : ∀ offset < grid.page, ∀ row < grid.recordTiles,
    grid.tileIndex offset row < tiles.length
  holds : ∀ row < grid.recordTiles, ∀ column < grid.offsetTiles, ∃ tile,
    tiles[row * grid.offsetTiles + column]? = some tile ∧
      tile.firstRecord = row * grid.tileSize ∧ tile.firstOffset = column * grid.tileSize ∧
      tile.runs.toList =
        (List.range' (column * grid.tileSize)
          (min ((column + 1) * grid.tileSize) grid.page - column * grid.tileSize)).map fun offset =>
            ⟨offset * grid.records + row * grid.tileSize,
              min ((row + 1) * grid.tileSize) grid.records - row * grid.tileSize⟩
  owned_once : ∀ index < grid.area, ∃! place : ℕ × ℕ, ∃ tile run,
    tiles[place.1]? = some tile ∧ tile.runs[place.2]? = some run ∧
      run.start ≤ index ∧ index < run.start + run.length
  inside : ∀ tile ∈ tiles, ∀ k run, tile.runs[k]? = some run → ∀ x < run.length,
    run.start + x < grid.area ∧ tile.sourceIndex grid.page k + x * grid.page < grid.area

/-- Every product and every sum on the way to the result is a word, also the source index after the
last byte of a run. -/
structure FitsWords (grid : Grid) (tiles : List Tile) : Prop where
  tileCount_lt : grid.recordTiles * grid.offsetTiles < UInt64.size
  corner_lt : ∀ id < grid.tileCount, id / grid.offsetTiles * grid.tileSize < UInt64.size ∧
    id % grid.offsetTiles * grid.tileSize < UInt64.size
  tileIndex_lt : ∀ offset < grid.page, ∀ row < grid.recordTiles,
    row * grid.offsetTiles < UInt64.size ∧
      row * grid.offsetTiles + offset / grid.tileSize < UInt64.size
  sourceIndex_lt : ∀ tile ∈ tiles, ∀ k run, tile.runs[k]? = some run →
    tile.firstRecord * grid.page < UInt64.size ∧
      tile.firstRecord * grid.page + tile.firstOffset < UInt64.size ∧
      tile.sourceIndex grid.page k < UInt64.size ∧
      ∀ x < run.length, tile.sourceIndex grid.page k + (x + 1) * grid.page < UInt64.size

variable {grid : Grid} {id k row column index : ℕ} {tile : Tile} {run : Run}

theorem getElem?_runs_fullTile :
    (grid.fullTile row column).runs[k]? =
      if k < min grid.tileSize (grid.page - column * grid.tileSize) then
        some (grid.run (column * grid.tileSize + k) row)
      else none := by
  rw [fullTile, columnOffsets, List.getElem?_toArray, List.getElem?_map]
  by_cases hk : k < min grid.tileSize (grid.page - column * grid.tileSize)
  · rw [if_pos hk, List.getElem?_range' hk, Option.map_some, Nat.one_mul]
  · rw [if_neg hk, List.getElem?_eq_none (by rw [List.length_range']; omega), Option.map_none]

theorem exists_owned (ht : 0 < grid.tileSize) (htile : grid.tiles[id]? = some tile)
    (hrun : tile.runs[k]? = some run) : ∃ row column, grid.Owned id k tile run row column := by
  obtain ⟨row, hr, column, hc, rfl, rfl⟩ := exists_row_column ht htile
  rw [getElem?_runs_fullTile] at hrun
  split at hrun
  · next hk =>
    cases hrun
    refine ⟨row, column, ?_⟩
    constructor
    · exact hr
    · exact hc
    · rfl
    · rfl
    · omega
    · omega
    · rfl
  · cases hrun

namespace Owned

variable {x : ℕ}

/-- A byte of the run is the byte of one record at one offset. -/
theorem record_lt (h : grid.Owned id k tile run row column) (hx : x < run.length) :
    x < grid.tileSize ∧ row * grid.tileSize + x < grid.records := by
  rw [h.run_eq, Grid.run] at hx
  dsimp only at hx
  omega

theorem target_eq (h : grid.Owned id k tile run row column) (x : ℕ) :
    run.start + x =
      (column * grid.tileSize + k) * grid.records + (row * grid.tileSize + x) := by
  rw [h.run_eq, Grid.run]
  exact Nat.add_assoc _ _ _

theorem source_eq (h : grid.Owned id k tile run row column) (x : ℕ) :
    tile.sourceIndex grid.page k + x * grid.page =
      (row * grid.tileSize + x) * grid.page + (column * grid.tileSize + k) := by
  rw [h.tile_eq, Tile.sourceIndex, fullTile]
  ring

theorem target_lt (h : grid.Owned id k tile run row column) (hx : x < run.length) :
    run.start + x < grid.area := by
  rw [h.target_eq, area, Nat.mul_comm grid.records]
  exact mul_add_lt_mul h.offset_lt (h.record_lt hx).2

theorem source_lt (h : grid.Owned id k tile run row column) (hx : x < run.length) :
    tile.sourceIndex grid.page k + x * grid.page < grid.area := by
  rw [h.source_eq]
  exact mul_add_lt_mul (h.record_lt hx).2 h.offset_lt

/-- Where an index lies decides which run it is in. -/
theorem owner_eq (h : grid.Owned id k tile run row column) (hx : x < run.length) :
    grid.owner (run.start + x) = (id, k) := by
  obtain ⟨hlt, hrecord⟩ := h.record_lt hx
  obtain ⟨hoffset, hinner⟩ := div_mod_of_lt (i := column * grid.tileSize + k) hrecord
  obtain ⟨hcolumn, hk⟩ := div_mod_of_lt (i := column) h.k_lt
  obtain ⟨hrow, -⟩ := div_mod_of_lt (i := row) hlt
  rw [owner, h.target_eq, hoffset, hinner, hrow, hk, tileIndex, hcolumn, h.id_eq]

end Owned

theorem exists_run_at (ht : 0 < grid.tileSize) (hi : index < grid.area) :
    ∃ tile run x, grid.tiles[(grid.owner index).1]? = some tile ∧
      tile.runs[(grid.owner index).2]? = some run ∧ x < run.length ∧ index = run.start + x := by
  have hrecords : 0 < grid.records := by
    apply Nat.pos_of_ne_zero
    intro hz
    simp [area, hz] at hi
  have hoffset : index / grid.records < grid.page := Nat.div_lt_of_lt_mul hi
  have hrecord : index % grid.records < grid.records := Nat.mod_lt _ hrecords
  have hrow : index % grid.records / grid.tileSize < grid.recordTiles := by
    rw [recordTiles, lt_pieces_iff ht]
    exact (Nat.div_mul_le_self _ _).trans_lt hrecord
  have hcolumn : index / grid.records / grid.tileSize < grid.offsetTiles := by
    rw [offsetTiles, lt_pieces_iff ht]
    exact (Nat.div_mul_le_self _ _).trans_lt hoffset
  have hoffset_eq := Nat.div_add_mod' (index / grid.records) grid.tileSize
  have hrecord_eq := Nat.div_add_mod' (index % grid.records) grid.tileSize
  have hk := Nat.mod_lt (index / grid.records) ht
  have hx := Nat.mod_lt (index % grid.records) ht
  refine ⟨_, grid.run (index / grid.records) (index % grid.records / grid.tileSize),
    index % grid.records % grid.tileSize, getElem?_tiles_of_lt ht hrow hcolumn, ?_, ?_, ?_⟩
  · rw [owner, getElem?_runs_fullTile, if_pos (by omega), hoffset_eq]
  · rw [Grid.run]
    dsimp only
    omega
  · rw [Grid.run]
    dsimp only
    rw [Nat.add_assoc, hrecord_eq]
    exact (Nat.div_add_mod' index _).symm

theorem toList_runs_fullTile :
    (grid.fullTile row column).runs.toList =
      (List.range' (column * grid.tileSize)
        (min ((column + 1) * grid.tileSize) grid.page - column * grid.tileSize)).map fun offset =>
          ⟨offset * grid.records + row * grid.tileSize,
            min ((row + 1) * grid.tileSize) grid.records - row * grid.tileSize⟩ := by
  have hclip : ∀ start total : ℕ, min grid.tileSize (total - start * grid.tileSize) =
      min ((start + 1) * grid.tileSize) total - start * grid.tileSize := by
    intro start total
    rw [Nat.add_mul, Nat.one_mul]
    omega
  rw [fullTile, columnOffsets, hclip]
  unfold Grid.run
  simp only [hclip]

theorem divides (ht : 0 < grid.tileSize) : grid.Divides grid.tiles.toList where
  length_eq := by rw [Array.length_toList, size_tiles]
  tileIndex_lt := by
    intro offset hoffset row hrow
    have hcolumn : offset / grid.tileSize < grid.offsetTiles := by
      rw [offsetTiles, lt_pieces_iff ht]
      exact (Nat.div_mul_le_self _ _).trans_lt hoffset
    rw [Array.length_toList, size_tiles]
    exact mul_add_lt_mul hrow hcolumn
  holds := by
    intro row hrow column hcolumn
    refine ⟨grid.fullTile row column, ?_, rfl, rfl, toList_runs_fullTile⟩
    rw [Array.getElem?_toList]
    exact getElem?_tiles_of_lt ht hrow hcolumn
  owned_once := by
    intro index hindex
    obtain ⟨tile, run, x, htile, hrun, hx, rfl⟩ := exists_run_at ht hindex
    refine ⟨grid.owner (run.start + x), ⟨tile, run, ?_, hrun, by omega, by omega⟩, ?_⟩
    · rw [Array.getElem?_toList]
      exact htile
    · rintro ⟨id, k⟩ ⟨other, piece, hother, hpiece, hfirst, hlast⟩
      rw [Array.getElem?_toList] at hother
      obtain ⟨row, column, howned⟩ := exists_owned ht hother hpiece
      have howner := howned.owner_eq (x := run.start + x - piece.start) (by omega)
      rw [Nat.add_sub_cancel' hfirst] at howner
      exact howner.symm
  inside := by
    intro tile hmem k run hrun x hx
    obtain ⟨id, htile⟩ := List.mem_iff_getElem?.mp hmem
    rw [Array.getElem?_toList] at htile
    obtain ⟨row, column, howned⟩ := exists_owned ht htile hrun
    exact ⟨howned.target_lt hx, howned.source_lt hx⟩

/-- No more tiles are cut from a length than it has bytes. -/
theorem pieces_le {total size : ℕ} (hs : 0 < size) : pieces total size ≤ total := by
  by_contra hn
  have hlast := (lt_pieces_iff hs).mp (Nat.lt_of_not_le hn)
  have hle := Nat.le_mul_of_pos_right total hs
  omega

theorem fitsWords (ht : 0 < grid.tileSize) (hrecords : 0 < grid.records) (hpage : 0 < grid.page)
    (harea : grid.area < 2 ^ 63) : grid.FitsWords grid.tiles.toList := by
  have hword : UInt64.size = 2 ^ 63 + 2 ^ 63 := rfl
  have hcount : grid.recordTiles * grid.offsetTiles ≤ grid.area :=
    Nat.mul_le_mul (pieces_le ht) (pieces_le ht)
  have hrecordsLe : grid.records ≤ grid.area := Nat.le_mul_of_pos_right _ hpage
  have hpageLe : grid.page ≤ grid.area := Nat.le_mul_of_pos_left _ hrecords
  constructor
  · omega
  · intro id hid
    have hpos : 0 < grid.offsetTiles := by
      apply Nat.pos_of_ne_zero
      intro hz
      simp [tileCount, hz] at hid
    have hrow : id / grid.offsetTiles < grid.recordTiles :=
      Nat.div_lt_of_lt_mul (by rwa [Nat.mul_comm])
    have hfirstRecord := (lt_pieces_iff ht).mp hrow
    have hfirstOffset : id % grid.offsetTiles * grid.tileSize < grid.page :=
      (lt_pieces_iff ht).mp (Nat.mod_lt id hpos)
    exact ⟨by omega, by omega⟩
  · intro offset hoffset row hrow
    have hindex := (divides ht).tileIndex_lt offset hoffset row hrow
    rw [Array.length_toList, size_tiles, tileIndex, tileCount] at hindex
    have hsum : row * grid.offsetTiles + offset / grid.tileSize < UInt64.size := by omega
    exact ⟨(Nat.le_add_right _ _).trans_lt hsum, hsum⟩
  · intro tile hmem k run hrun
    obtain ⟨id, htile⟩ := List.mem_iff_getElem?.mp hmem
    rw [Array.getElem?_toList] at htile
    obtain ⟨row, column, howned⟩ := exists_owned ht htile hrun
    have hlength : 0 < run.length := by
      have hrow := (lt_pieces_iff ht).mp howned.row_lt
      rw [howned.run_eq, Grid.run]
      dsimp only
      omega
    have hfirst := howned.source_lt hlength
    have hstart : tile.sourceIndex grid.page k =
        tile.firstRecord * grid.page + tile.firstOffset + k := rfl
    refine ⟨by omega, by omega, by omega, fun x hx => ?_⟩
    have hlast := howned.source_lt hx
    rw [Nat.add_mul, Nat.one_mul]
    omega

end Grid

variable {options : TransposeOptions} {page length : ℕ}

/-- Whatever the edge of the tiles, carving a destination of any length that fits half a word hands
out every index once, and nothing that is computed for it, or for copying a tile, leaves the buffers
or the words. -/
theorem tiles_divide_destination (hpos : 0 < length) (hlen : length < 2 ^ 63)
    (hd : page ∣ length) (ht : 0 < options.tileSize) :
    let grid : Grid := ⟨length / page, page, options.tileSize⟩
    grid.area = length ∧ grid.Divides (schedule options page length) ∧
      grid.FitsWords (schedule options page length) := by
  intro grid
  have harea : grid.area = length := Nat.div_mul_cancel hd
  have hpage : 0 < page := Nat.pos_of_dvd_of_pos hd hpos
  have hrecords : 0 < length / page := Nat.div_pos (Nat.le_of_dvd hpos hd) hpage
  refine ⟨harea, Grid.divides ht, Grid.fitsWords ht hrecords hpage ?_⟩
  rw [harea]
  exact hlen

/-- Five records of three bytes in tiles of edge two, which are clipped on both sides. -/
theorem tiles_divide_destination_clipped :
    0 < 15 ∧ 15 < 2 ^ 63 ∧ 3 ∣ 15 ∧ 0 < 2 ∧
      (schedule ⟨2, 1⟩ 3 15)[5]? = some ⟨4, 2, #[⟨14, 1⟩]⟩ ∧
      Grid.Divides ⟨5, 3, 2⟩ (schedule ⟨2, 1⟩ 3 15) ∧
      Grid.FitsWords ⟨5, 3, 2⟩ (schedule ⟨2, 1⟩ 3 15) := by
  have hd : 3 ∣ 15 := by decide
  have ht : 0 < (⟨2, 1⟩ : TransposeOptions).tileSize := by decide
  obtain ⟨_, hdivides, hfits⟩ :=
    tiles_divide_destination (by decide : 0 < 15) (by decide) hd ht
  exact ⟨by decide, by decide, hd, ht, by decide +kernel, hdivides, hfits⟩

end PlaneArchive.Transpose
