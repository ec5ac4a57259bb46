import Mathlib.Data.List.FinRange
import Mathlib.Tactic.Ring
import PlaneArchive.Proofs.Transpose.Copying

/-! # Planes of planes

Where a byte comes from depends on the page size and the length of the buffer only, and nothing is
lost. Following a byte through the planes of page size `q` and then through those of page size `p`
leads to where it comes from through the planes of page size `p * q`.
-/
namespace PlaneArchive.Transpose

/-- The place in a buffer of the byte at place `i` of its planes. -/
def origin (page length i : ℕ) : ℕ := i % (length / page) * page + i / (length / page)

variable {page records p q length i : ℕ} {src : Bytes}

theorem origin_mul_add {r b : ℕ} (hlen : length = records * page) (hr : r < records)
    (hb : b < page) : origin page length (b * records + r) = r * page + b := by
  have hrecords : length / page = records := by
    rw [hlen, Nat.mul_div_cancel _ (Nat.zero_lt_of_lt hb)]
  obtain ⟨hdiv, hmod⟩ := div_mod_of_lt (i := b) hr
  rw [origin, hrecords, hdiv, hmod]

/-- A place in the planes is a plane and a record. -/
theorem exists_plane_record (hlen : length = records * page) (hi : i < length) :
    ∃ b < page, ∃ r < records, i = b * records + r := by
  have hrecords : 0 < records := Nat.pos_of_ne_zero fun hz => by
    rw [hlen, hz, Nat.zero_mul] at hi
    exact absurd hi (Nat.not_lt_zero i)
  refine ⟨i / records, ?_, i % records, Nat.mod_lt i hrecords, (Nat.div_add_mod' i records).symm⟩
  exact Nat.div_lt_of_lt_mul (hlen ▸ hi)

theorem origin_lt (hd : page ∣ length) (hi : i < length) : origin page length i < length := by
  have hlen : length = length / page * page := (Nat.div_mul_cancel hd).symm
  obtain ⟨b, hb, r, hr, rfl⟩ := exists_plane_record hlen hi
  rw [origin_mul_add hlen hr hb]
  calc r * page + b < length / page * page := mul_add_lt_mul hr hb
    _ = length := hlen.symm

theorem origin_self (hi : i < length) : origin length length i = i := by
  have hone : length / length = 1 := Nat.div_self (Nat.zero_lt_of_lt hi)
  rw [origin, hone, Nat.mod_one, Nat.zero_mul, Nat.zero_add, Nat.div_one]

/-- The planes of page size `p * q` are numbered by a plane of page size `q` and, within it, one of
page size `p`. -/
theorem origin_origin (hd : p * q ∣ length) (hi : i < length) :
    origin p length (origin q length i) = origin (p * q) length i := by
  obtain ⟨n, hn⟩ := hd
  have hlen : length = n * (p * q) := by rw [hn, Nat.mul_comm]
  obtain ⟨plane, hplane, r, hr, rfl⟩ := exists_plane_record hlen hi
  obtain ⟨c, hc, b, hb, rfl⟩ := exists_plane_record rfl hplane
  have hbr : b * n + r < n * p := by
    rw [Nat.mul_comm n]
    exact mul_add_lt_mul hb hr
  have hrc : r * q + c < n * q := mul_add_lt_mul hr hc
  calc origin p length (origin q length ((c * p + b) * n + r))
      = origin p length (origin q length (c * (n * p) + (b * n + r))) := by ring_nf
    _ = origin p length ((b * n + r) * q + c) := by
        rw [origin_mul_add (by rw [hlen]; ring) hbr hc]
    _ = origin p length (b * (n * q) + (r * q + c)) := by ring_nf
    _ = (r * q + c) * p + b := origin_mul_add (by rw [hlen]; ring) hrc hb
    _ = r * (p * q) + (c * p + b) := by ring
    _ = origin (p * q) length ((c * p + b) * n + r) := (origin_mul_add hlen hr hplane).symm

theorem getElem?_planes_eq (hd : page ∣ src.length) (i : ℕ) :
    (planes page src)[i]? = if i < src.length then src[origin page src.length i]? else none := by
  by_cases hi : i < src.length
  · rw [if_pos hi, getElem?_planes hi, List.getD_eq_getElem?_getD]
    have hlt := origin_lt hd hi
    rw [List.getElem?_eq_getElem hlt]
    exact congrArg some (congrArg (Option.getD · 0) (List.getElem?_eq_getElem hlt))
  · rw [if_neg hi, List.getElem?_eq_none (by simpa using hi)]

theorem planes_planes_mul (hd : p * q ∣ src.length) :
    planes q (planes p src) = planes (p * q) src := by
  have hp : p ∣ src.length := (Nat.dvd_mul_right p q).trans hd
  have hq : q ∣ src.length := (Nat.dvd_mul_left q p).trans hd
  have hlen : (planes p src).length = src.length := length_planes p src
  apply List.ext_getElem?
  intro i
  rw [getElem?_planes_eq (hlen ▸ hq), getElem?_planes_eq hd, hlen]
  by_cases hi : i < src.length
  · rw [if_pos hi, if_pos hi, getElem?_planes_eq hp, if_pos (origin_lt hq hi),
      origin_origin hd hi]
  · rw [if_neg hi, if_neg hi]

theorem planes_length (src : Bytes) : planes src.length src = src := by
  apply List.ext_getElem?
  intro i
  rw [getElem?_planes_eq (Nat.dvd_refl _)]
  by_cases hi : i < src.length
  · rw [if_pos hi, origin_self hi]
  · rw [if_neg hi, List.getElem?_eq_none (Nat.le_of_not_lt hi)]

/-- The places that the bytes of a buffer come from, as a rearrangement of its places. -/
def shuffle (page length : ℕ) (hd : page ∣ length) : Equiv.Perm (Fin length) where
  toFun i := ⟨origin page length i, origin_lt hd i.isLt⟩
  invFun i := ⟨origin (length / page) length i, origin_lt (Nat.div_dvd_of_dvd hd) i.isLt⟩
  left_inv i := by
    apply Fin.ext
    have hmul : length / page * page = length := Nat.div_mul_cancel hd
    change origin (length / page) length (origin page length i) = i
    rw [origin_origin (dvd_of_eq hmul) i.isLt, hmul, origin_self i.isLt]
  right_inv i := by
    apply Fin.ext
    have hmul : page * (length / page) = length := Nat.mul_div_cancel' hd
    change origin page length (origin (length / page) length i) = i
    rw [origin_origin (dvd_of_eq hmul) i.isLt, hmul, origin_self i.isLt]

theorem planes_eq_ofFn (hlen : src.length = length) (hd : page ∣ length) :
    planes page src = List.ofFn fun i => src[shuffle page length hd i] := by
  subst hlen
  apply List.ext_getElem?
  intro i
  rw [getElem?_planes_eq hd, List.getElem?_ofFn]
  by_cases hi : i < src.length
  · rw [if_pos hi, dif_pos hi, List.getElem?_eq_getElem (origin_lt hd hi)]
    rfl
  · rw [if_neg hi, dif_neg hi]

end PlaneArchive.Transpose
