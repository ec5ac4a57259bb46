import PlaneArchive.Proofs.Transpose.Tiling

/-! # Copying tiles in any order

Copying a tile is a list of stores of single bytes. Every store of every tile puts the byte of the
index mapping at its index, and every index is stored to. Whatever the order of the stores, the
destination therefore ends as the index mapping says.
-/
namespace PlaneArchive.Transpose

/-- One byte on its way to one index of the destination. -/
structure Store where
  index : ℕ
  byte : UInt8
  deriving DecidableEq, Repr

def storeAll (dst : Array UInt8) (stores : List Store) : Array UInt8 :=
  stores.foldl (fun dst store => dst.setIfInBounds store.index store.byte) dst

/-- The stores that fill a run from the source index `index` on. -/
def Run.stores (src : Array UInt8) (page index : ℕ) (run : Run) : List Store :=
  (List.range run.length).map fun i => ⟨run.start + i, src.getD (index + i * page) 0⟩

def Tile.stores (src : Array UInt8) (page : ℕ) (tile : Tile) : List Store :=
  tile.runs.toList.zipIdx.flatMap fun (run, k) => run.stores src page (tile.sourceIndex page k)

theorem copyRun_eq_storeAll (src : Array UInt8) (page index : ℕ) (run : Run)
    (dst : Array UInt8) :
    copyRun src page index run dst = storeAll dst (run.stores src page index) := by
  rw [copyRun, storeAll, Run.stores, List.foldl_map]

theorem copyTile_eq_storeAll (src : Array UInt8) (page : ℕ) (dst : Array UInt8) (tile : Tile) :
    copyTile src page dst tile = storeAll dst (tile.stores src page) := by
  rw [copyTile, storeAll, Tile.stores, List.foldl_flatMap]
  congr 1
  funext dst run
  exact copyRun_eq_storeAll src page _ run.1 dst

theorem copyTiles_eq_storeAll (src : Array UInt8) (page : ℕ) (tiles : List Tile) :
    copyTiles src page tiles =
      storeAll (Array.replicate src.size 0) (tiles.flatMap fun tile => tile.stores src page) := by
  rw [copyTiles, storeAll, List.foldl_flatMap]
  congr 1
  funext dst tile
  exact copyTile_eq_storeAll src page dst tile

/-- Stores that agree with a target bring every index that they meet to its target. -/
theorem getElem?_storeAll {dst target : Array UInt8} {stores : List Store}
    (hsize : dst.size = target.size)
    (hagree : ∀ store ∈ stores, target[store.index]? = some store.byte) {i : ℕ}
    (hi : dst[i]? = target[i]? ∨ ∃ store ∈ stores, store.index = i) :
    (storeAll dst stores)[i]? = target[i]? := by
  induction stores generalizing dst with
  | nil =>
    rcases hi with hi | ⟨store, hm, _⟩
    · exact hi
    · cases hm
  | cons store stores ih =>
    have hat := hagree store List.mem_cons_self
    have hlt : store.index < dst.size := by
      rw [hsize]
      exact (Array.getElem?_eq_some_iff.mp hat).1
    apply ih (by rw [Array.size_setIfInBounds, hsize])
      (fun s hs => hagree s (List.mem_cons_of_mem _ hs))
    by_cases hs : store.index = i
    · left
      subst hs
      rw [Array.getElem?_setIfInBounds_self_of_lt hlt, hat]
    · rcases hi with hi | ⟨s, hm, hsi⟩
      · left
        rw [Array.getElem?_setIfInBounds_ne hs, hi]
      · right
        rcases List.mem_cons.mp hm with rfl | hm
        · exact absurd hsi hs
        · exact ⟨s, hm, hsi⟩

theorem storeAll_eq_target {dst target : Array UInt8} {stores : List Store}
    (hsize : dst.size = target.size)
    (hagree : ∀ store ∈ stores, target[store.index]? = some store.byte)
    (hcover : ∀ i < target.size, ∃ store ∈ stores, store.index = i) :
    storeAll dst stores = target := by
  apply Array.ext_getElem?
  intro i
  by_cases hi : i < target.size
  · exact getElem?_storeAll hsize hagree (.inr (hcover i hi))
  · apply getElem?_storeAll hsize hagree
    left
    rw [Array.getElem?_eq_none (by omega), Array.getElem?_eq_none (by omega)]

theorem getElem?_planes {page i : ℕ} {src : Bytes} (hi : i < src.length) :
    (planes page src)[i]? =
      some (src.getD (i % (src.length / page) * page + i / (src.length / page)) 0) := by
  simp [planes, hi, Array.getD_eq_getD_getElem?, List.getD_eq_getElem?_getD]

theorem getElem?_planes_of_lt {page records r b : ℕ} {src : Bytes}
    (hlen : src.length = records * page) (hr : r < records) (hb : b < page) :
    r * page + b < src.length ∧ b * records + r < src.length ∧
      (planes page src)[b * records + r]? = src[r * page + b]? := by
  have hsrc : r * page + b < src.length := by
    rw [hlen]
    exact mul_add_lt_mul hr hb
  have hdst : b * records + r < src.length := by
    rw [hlen, Nat.mul_comm records]
    exact mul_add_lt_mul hb hr
  have hn : src.length / page = records := by
    rw [hlen, Nat.mul_div_cancel _ (by omega)]
  obtain ⟨hdiv, hmod⟩ := div_mod_of_lt (i := b) hr
  refine ⟨hsrc, hdst, ?_⟩
  rw [getElem?_planes hdst, hn, hdiv, hmod, List.getD_eq_getElem?_getD,
    List.getElem?_eq_getElem hsrc, Option.getD_some]

section Schedule

variable {grid : Grid} {src : Array UInt8}

theorem mem_stores_fullTile {row column : ℕ} {store : Store} :
    store ∈ (grid.fullTile row column).stores src grid.page ↔
      ∃ k < min grid.tileSize (grid.page - column * grid.tileSize),
        ∃ x < min grid.tileSize (grid.records - row * grid.tileSize),
          store = ⟨(column * grid.tileSize + k) * grid.records + (row * grid.tileSize + x),
            src.getD ((row * grid.tileSize + x) * grid.page + (column * grid.tileSize + k)) 0⟩ := by
  have hidx : ∀ k x, (row * grid.tileSize + x) * grid.page + (column * grid.tileSize + k) =
      row * grid.tileSize * grid.page + column * grid.tileSize + k + x * grid.page := by
    intro k x
    rw [Nat.add_mul]
    omega
  simp only [Tile.stores, List.mem_flatMap, Prod.exists, List.mem_zipIdx_iff_getElem?, Run.stores,
    List.mem_map, List.mem_range, hidx, ← Nat.add_assoc]
  constructor
  · rintro ⟨run, k, hrun, x, hx, rfl⟩
    have hk : k < min grid.tileSize (grid.page - column * grid.tileSize) := by
      have := (List.getElem?_eq_some_iff.mp hrun).1
      simpa [Grid.fullTile, Grid.columnOffsets] using this
    simp only [Grid.fullTile, Grid.columnOffsets, List.getElem?_map,
      List.getElem?_range' hk, Option.map_some, Option.some.injEq, Nat.one_mul] at hrun
    subst hrun
    exact ⟨k, hk, x, hx, rfl⟩
  · rintro ⟨k, hk, x, hx, rfl⟩
    refine ⟨grid.run (column * grid.tileSize + k) row, k, ?_, x, hx, rfl⟩
    simp only [Grid.fullTile, Grid.columnOffsets, List.getElem?_map,
      List.getElem?_range' hk, Option.map_some, Nat.one_mul]

/-- What a full tile stores is what the index mapping puts there. -/
theorem getElem?_planes_of_mem_stores {src : Bytes} (hlen : src.length = grid.records * grid.page)
    {row column : ℕ} {store : Store}
    (h : store ∈ (grid.fullTile row column).stores src.toArray grid.page) :
    (planes grid.page src)[store.index]? = some store.byte := by
  obtain ⟨k, hk, x, hx, rfl⟩ := mem_stores_fullTile.mp h
  have hb : column * grid.tileSize + k < grid.page := by omega
  have hr : row * grid.tileSize + x < grid.records := by omega
  obtain ⟨hsrc, _, hval⟩ := getElem?_planes_of_lt hlen hr hb
  rw [hval, Array.getD_eq_getD_getElem?, List.getElem?_toArray, List.getElem?_eq_getElem hsrc,
    Option.getD_some]

/-- Every index of the destination is met by a store of some full tile. -/
theorem exists_store_at (ht : 0 < grid.tileSize) {i : ℕ} (hi : i < grid.records * grid.page) :
    ∃ row < grid.recordTiles, ∃ column < grid.offsetTiles,
      ∃ store ∈ (grid.fullTile row column).stores src grid.page, store.index = i := by
  have hpos : 0 < grid.records := by
    apply Nat.pos_of_ne_zero
    intro hz
    rw [hz, Nat.zero_mul] at hi
    omega
  have hoff : i / grid.records < grid.page := Nat.div_lt_of_lt_mul hi
  have hrec : i % grid.records < grid.records := Nat.mod_lt _ hpos
  have hdecomp : ∀ n, n / grid.tileSize * grid.tileSize + n % grid.tileSize = n :=
    fun n => Nat.div_add_mod' n _
  have hmodlt : ∀ n, n % grid.tileSize < grid.tileSize := fun n => Nat.mod_lt n ht
  refine ⟨i % grid.records / grid.tileSize, ?_, i / grid.records / grid.tileSize, ?_, _,
    mem_stores_fullTile.mpr ⟨i / grid.records % grid.tileSize, ?_,
      i % grid.records % grid.tileSize, ?_, rfl⟩, ?_⟩
  · rw [Grid.recordTiles, lt_pieces_iff ht]
    exact lt_of_le_of_lt (Nat.div_mul_le_self _ _) hrec
  · rw [Grid.offsetTiles, lt_pieces_iff ht]
    exact lt_of_le_of_lt (Nat.div_mul_le_self _ _) hoff
  · have h₁ := hdecomp (i / grid.records)
    have h₂ := hmodlt (i / grid.records)
    omega
  · have h₁ := hdecomp (i % grid.records)
    have h₂ := hmodlt (i % grid.records)
    omega
  · dsimp only
    rw [hdecomp, hdecomp]
    exact Nat.div_add_mod' i _

end Schedule

variable {options : TransposeOptions} {page : ℕ} {src : Bytes}

/-- All stores of all tiles, in any order, leave the index mapping. -/
theorem storeAll_eq_planes (ht : 0 < options.tileSize) (hd : page ∣ src.length)
    {stores : List Store}
    (hs : stores.Perm ((schedule options page src.length).flatMap
      fun tile => tile.stores src.toArray page)) :
    storeAll (Array.replicate src.length 0) stores = (planes page src).toArray := by
  set grid : Grid := ⟨src.length / page, page, options.tileSize⟩ with hgrid
  have hlen : src.length = grid.records * page := (Nat.div_mul_cancel hd).symm
  apply storeAll_eq_target (by simp)
  · intro store hstore
    rw [hs.mem_iff, schedule, ← hgrid, List.mem_flatMap] at hstore
    obtain ⟨tile, htile, hstore⟩ := hstore
    obtain ⟨row, _, column, _, rfl⟩ := (Grid.mem_tiles_iff ht).mp htile
    rw [List.getElem?_toArray]
    exact getElem?_planes_of_mem_stores hlen hstore
  · intro i hi
    simp only [List.size_toArray, length_planes] at hi
    rw [hlen] at hi
    obtain ⟨row, hr, column, hc, store, hstore, hindex⟩ := exists_store_at ht hi
    refine ⟨store, ?_, hindex⟩
    rw [hs.mem_iff, schedule, ← hgrid, List.mem_flatMap]
    exact ⟨_, (Grid.mem_tiles_iff ht).mpr ⟨row, hr, column, hc, rfl⟩, hstore⟩

theorem copyTiles_eq_planes (ht : 0 < options.tileSize) (hd : page ∣ src.length)
    {order : List Tile} (ho : order.Perm (schedule options page src.length)) :
    (copyTiles src.toArray page order).toList = planes page src := by
  rw [copyTiles_eq_storeAll, List.size_toArray,
    storeAll_eq_planes ht hd (ho.flatMap_right _)]

end PlaneArchive.Transpose
