import PlaneArchive.Proofs.Transpose.Copying

/-! # Transposition is the index mapping

Whether a transposition succeeds depends on the request alone, and its result on neither the edge
of the tiles, nor the number of workers, nor the order in which they work.
-/
namespace PlaneArchive.Transpose

/-- A request that is carried out: usable options, and whole pages. -/
structure Sound (options : TransposeOptions) (page length : ℕ) : Prop where
  tileSize_ne_zero : options.tileSize ≠ 0
  workers_ne_zero : options.workers ≠ 0
  page_ne_zero : page ≠ 0
  wholePages : page ∣ length

variable {options : TransposeOptions} {page : ℕ} {src : Bytes}

theorem run_of_sound (h : Sound options page src.length) :
    run options page src = .ok (planes page src) := by
  have hv : options.validate = .ok () := by
    simp [TransposeOptions.validate, h.tileSize_ne_zero, h.workers_ne_zero]
  have hs : checkShape page src.length = .ok () := by
    simp [checkShape, h.page_ne_zero, Nat.mod_eq_zero_of_dvd h.wholePages]
  have ht : 0 < options.tileSize := Nat.pos_of_ne_zero h.tileSize_ne_zero
  simp only [run, hv, hs, bind, Except.bind, pure, Except.pure, List.size_toArray]
  split
  · next hz =>
    have hn : src = [] := by
      rw [← List.length_eq_zero_iff, ← Nat.div_mul_cancel h.wholePages, hz, Nat.zero_mul]
    rw [hn]
    rfl
  · rw [copyTiles_eq_planes ht h.wholePages (List.Perm.refl _)]

theorem run_of_not_sound (h : ¬ Sound options page src.length) :
    ∃ fault, run options page src = .error (.invalidConfig fault) := by
  unfold run TransposeOptions.validate checkShape
  by_cases ht : options.tileSize = 0
  · exact ⟨.zeroTileSize, by simp [ht, bind, Except.bind]⟩
  by_cases hw : options.workers = 0
  · exact ⟨.noTransposeWorkers, by simp [ht, hw, bind, Except.bind]⟩
  by_cases hp : page = 0
  · exact ⟨.zeroPageSize, by simp [ht, hw, hp, bind, Except.bind]⟩
  have hd : src.length % page ≠ 0 := fun hz => h ⟨ht, hw, hp, Nat.dvd_of_mod_eq_zero hz⟩
  exact ⟨.incompletePage src.length page, by simp [ht, hw, hp, hd, bind, Except.bind]⟩

/-- A transposition succeeds exactly on sound requests, and any other request is an invalid
configuration. The result is the index mapping, whatever the order in which whole tiles are copied,
and even if the workers interleave byte by byte. -/
theorem run_index_mapping_any_order (options : TransposeOptions) (page : ℕ) (src : Bytes) :
    (¬ Sound options page src.length →
      ∃ fault, run options page src = .error (.invalidConfig fault)) ∧
    (Sound options page src.length → ∃ dst, run options page src = .ok dst ∧
      dst.length = src.length ∧
      (∀ r < src.length / page, ∀ b < page, ∃ byte,
        src[r * page + b]? = some byte ∧ dst[b * (src.length / page) + r]? = some byte) ∧
      (∀ order : List Tile, order.Perm (schedule options page src.length) →
        (copyTiles src.toArray page order).toList = dst) ∧
      ∀ stores : List Store, stores.Perm ((schedule options page src.length).flatMap
          fun tile => tile.stores src.toArray page) →
        (storeAll (Array.replicate src.length 0) stores).toList = dst) := by
  refine ⟨run_of_not_sound, ?_⟩
  intro h
  have ht : 0 < options.tileSize := Nat.pos_of_ne_zero h.tileSize_ne_zero
  refine ⟨planes page src, run_of_sound h, length_planes page src, ?_, ?_, ?_⟩
  · intro r hr b hb
    obtain ⟨hsrc, _, hval⟩ :=
      getElem?_planes_of_lt (Nat.div_mul_cancel h.wholePages).symm hr hb
    exact ⟨src[r * page + b], List.getElem?_eq_getElem hsrc,
      hval.trans (List.getElem?_eq_getElem hsrc)⟩
  · intro order ho
    exact copyTiles_eq_planes ht h.wholePages ho
  · intro stores hs
    rw [storeAll_eq_planes ht h.wholePages hs]

theorem run_three_records_reversed :
    Sound ⟨3, 2⟩ 4 12 ∧ ∃ dst, run ⟨3, 2⟩ 4 [0, 1, 2, 3, 4, 5, 6, 7, 8, 9, 10, 11] = .ok dst ∧
      (copyTiles #[0, 1, 2, 3, 4, 5, 6, 7, 8, 9, 10, 11] 4 (schedule ⟨3, 2⟩ 4 12).reverse).toList =
        dst := by
  have hs : Sound ⟨3, 2⟩ 4 12 := ⟨by decide, by decide, by decide, by decide⟩
  obtain ⟨dst, hrun, _, _, horder, _⟩ := (run_index_mapping_any_order ⟨3, 2⟩ 4
    [0, 1, 2, 3, 4, 5, 6, 7, 8, 9, 10, 11]).2 hs
  exact ⟨hs, dst, hrun, horder _ (List.reverse_perm _)⟩

end PlaneArchive.Transpose
