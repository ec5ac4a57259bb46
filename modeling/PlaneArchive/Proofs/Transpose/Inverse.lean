import PlaneArchive.Proofs.Transpose.Composition
import PlaneArchive.Proofs.Transpose.IndexMapping

/-! # Undoing the planes

Two transpositions in a row are one by the product of their page sizes. So a buffer of planes, taken
as records whose size is the number of original records, gives the original records back.
-/
namespace PlaneArchive.Transpose

theorem planes_planes {page records : ℕ} {src : Bytes} (hlen : src.length = records * page) :
    planes records (planes page src) = src := by
  have hmul : page * records = src.length := (Nat.mul_comm page records).trans hlen.symm
  rw [planes_planes_mul (dvd_of_eq hmul), hmul, planes_length]

/-- Planes are undone with nothing but the length of the buffer and the page size. -/
theorem planes_length_div_page {page : ℕ} {src : Bytes} (hd : page ∣ src.length) :
    planes ((planes page src).length / page) (planes page src) = src := by
  apply planes_planes
  rw [length_planes, Nat.div_mul_cancel hd]

theorem sound_of_validate {options : TransposeOptions} {page length : ℕ}
    (hv : options.validate = .ok ()) (hlen : length ≠ 0) (hd : page ∣ length) :
    Sound options page length := by
  have hpage : page ≠ 0 := by
    rintro rfl
    exact hlen (Nat.eq_zero_of_zero_dvd hd)
  unfold TransposeOptions.validate at hv
  split at hv
  · cases hv
  · next ht =>
    split at hv
    · cases hv
    · next hw => exact ⟨ht, hw, hpage, hd⟩

/-- Under whatever options, transposing by `p` and then by `q` is transposing by `p * q`. With the
number of records for `q` this brings the buffer back, for every transposition rearranges the places
of its buffer in a way that the page size and the length alone decide. -/
theorem transpositions_compose {first second both : TransposeOptions} {p q : ℕ} {src : Bytes}
    (hfirst : first.validate = .ok ()) (hsecond : second.validate = .ok ())
    (hboth : both.validate = .ok ()) (hsrc : src ≠ []) (hd : p * q ∣ src.length) :
    ∃ once twice, run first p src = .ok once ∧ run second q once = .ok twice ∧
      run both (p * q) src = .ok twice ∧
      once.length = src.length ∧ run second (once.length / p) once = .ok src ∧
      ∃ rearranged : Equiv.Perm (Fin src.length), ∀ other : Bytes,
        ∀ hlen : other.length = src.length,
          run first p other = .ok (List.ofFn fun i => other[rearranged i]) := by
  have hsome : src.length ≠ 0 := fun hz => hsrc (List.length_eq_zero_iff.mp hz)
  have hp : p ∣ src.length := (Nat.dvd_mul_right p q).trans hd
  have hq : q ∣ src.length := (Nat.dvd_mul_left q p).trans hd
  have hlen : (planes p src).length = src.length := length_planes p src
  have honce : ∀ other : Bytes, other.length = src.length →
      run first p other = .ok (planes p other) := by
    intro other hother
    exact run_of_sound (hother ▸ sound_of_validate hfirst hsome hp)
  have htwice : ∀ stride, stride ∣ src.length →
      run second stride (planes p src) = .ok (planes stride (planes p src)) := by
    intro stride hstride
    exact run_of_sound (hlen ▸ sound_of_validate hsecond hsome hstride)
  refine ⟨planes p src, planes (p * q) src, honce src rfl, ?_, ?_, hlen, ?_, ?_⟩
  · rw [htwice q hq, planes_planes_mul hd]
  · exact run_of_sound (sound_of_validate hboth hsome hd)
  · have hback : (planes p src).length / p ∣ src.length := by
      rw [hlen]
      exact Nat.div_dvd_of_dvd hp
    rw [htwice _ hback, planes_length_div_page hp]
  · refine ⟨shuffle p src.length hp, ?_⟩
    intro other hother
    rw [honce other hother, planes_eq_ofFn hother hp]

/-- Six records of two bytes, then four of three, beside two of six at once. -/
theorem transpositions_compose_twelve :
    let src : Bytes := [0, 1, 2, 3, 4, 5, 6, 7, 8, 9, 10, 11]
    let once : Bytes := [0, 2, 4, 6, 8, 10, 1, 3, 5, 7, 9, 11]
    let twice : Bytes := [0, 6, 1, 7, 2, 8, 3, 9, 4, 10, 5, 11]
    run ⟨2, 1⟩ 2 src = .ok once ∧ run ⟨3, 2⟩ 3 once = .ok twice ∧
      run ⟨256, 4⟩ 6 src = .ok twice ∧ run ⟨3, 2⟩ 6 once = .ok src := by
  intro src once twice
  have hfirst : run ⟨2, 1⟩ 2 src = .ok once := by decide +kernel
  have hsecond : run ⟨3, 2⟩ 3 once = .ok twice := by decide +kernel
  obtain ⟨after, last, honce, htwice, hboth, hlen, hback, _⟩ :=
    @transpositions_compose ⟨2, 1⟩ ⟨3, 2⟩ ⟨256, 4⟩ 2 3 src rfl rfl rfl (by decide) (by decide)
  have hrecords : src.length / 2 = 6 := by simp [src]
  rw [hlen, hrecords] at hback
  obtain rfl : once = after := Except.ok.inj (hfirst.symm.trans honce)
  obtain rfl : twice = last := Except.ok.inj (hsecond.symm.trans htwice)
  exact ⟨hfirst, hsecond, hboth, hback⟩

end PlaneArchive.Transpose
