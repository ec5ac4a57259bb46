import Mathlib.Tactic.IntervalCases
import PlaneArchive.Wire.Varint

/-! # Variable-length integers read back

A number of 64 bits is read back from its canonical bytes, whatever follows them, and the length
of these bytes can be told from the bit length of the number.
-/
namespace PlaneArchive.Wire.Varint

/-- Each byte read leaves seven bits less for the rest; the tenth byte has one bit left. -/
theorem decodeFrom_encode {index n : ℕ} (hi : index ≤ 9) (hn : n < 2 ^ (64 - 7 * index))
    (rest : Bytes) : decodeFrom index (encode n ++ rest) = .ok (n, rest) := by
  induction n using Nat.strong_induction_on generalizing index with
  | h n ih =>
    have hlast : index = 9 → n < 2 := by
      rintro rfl
      simpa using hn
    rw [encode]
    by_cases hs : n < 128
    · have hbyte : (UInt8.ofNat n).toNat = n := by
        rw [UInt8.toNat_ofNat']
        omega
      have hfit : ¬ (10 ≤ index ∨ index = 9 ∧ (2 : UInt8) ≤ UInt8.ofNat n) := by
        rw [UInt8.le_iff_toNat_le, hbyte]
        rintro (h | ⟨h, h2⟩)
        · omega
        · exact absurd h2 (Nat.not_le.mpr (hlast h))
      have hend : UInt8.ofNat n < 128 := by
        rw [UInt8.lt_iff_toNat_lt, hbyte]
        exact hs
      simp only [if_pos hs, List.singleton_append, decodeFrom, if_neg hfit, if_pos hend, hbyte]
    · have hi8 : index ≤ 8 := by
        by_contra h
        have := hlast (by omega)
        omega
      have hbyte : (UInt8.ofNat (n % 128 + 128)).toNat = n % 128 + 128 := by
        rw [UInt8.toNat_ofNat']
        omega
      have hfit : ¬ (10 ≤ index ∨ index = 9 ∧ (2 : UInt8) ≤ UInt8.ofNat (n % 128 + 128)) := by
        omega
      have hmore : ¬ UInt8.ofNat (n % 128 + 128) < 128 := by
        rw [UInt8.lt_iff_toNat_lt, hbyte]
        simp
      have hpow : 2 ^ (64 - 7 * index) = 128 * 2 ^ (64 - 7 * (index + 1)) := by
        rw [show 64 - 7 * index = 7 + (64 - 7 * (index + 1)) by omega, Nat.pow_add]
      have hrest : decodeFrom (index + 1) (encode (n / 128) ++ rest) = .ok (n / 128, rest) :=
        ih (n / 128) (by omega) (by omega) (Nat.div_lt_of_lt_mul (by rwa [← hpow]))
      simp only [if_neg hs, List.cons_append, decodeFrom, if_neg hfit, if_neg hmore, hrest, hbyte]
      congr 2
      omega

theorem decode_encode {n : ℕ} (hn : n < 2 ^ 64) (rest : Bytes) :
    decode (encode n ++ rest) = .ok (n, rest) :=
  decodeFrom_encode (by omega) (by simpa using hn) rest

theorem encode_ne_nil (n : ℕ) : encode n ≠ [] := by
  rw [encode]
  split <;> simp

theorem log2_or_one {n : ℕ} (hn : n ≠ 0) : (n ||| 1).log2 = n.log2 := by
  have hne : n ||| 1 ≠ 0 := by
    intro h
    exact hn (Nat.or_eq_zero_iff.mp h).1
  rw [Nat.log2_eq_iff hne]
  refine ⟨(Nat.log2_self_le hn).trans Nat.left_le_or, ?_⟩
  exact Nat.or_lt_two_pow Nat.lt_log2_self (Nat.one_lt_two_pow (by omega))

theorem length_encode (n : ℕ) : (encode n).length = (n ||| 1).log2 / 7 + 1 := by
  induction n using Nat.strong_induction_on with
  | h n ih =>
    rw [encode]
    by_cases hs : n < 128
    · have hlt : (n ||| 1).log2 < 7 := by
        by_cases hz : n = 0
        · subst hz
          decide
        · rw [log2_or_one hz]
          exact (Nat.log2_lt hz).mpr hs
      rw [if_pos hs, List.length_singleton, Nat.div_eq_of_lt hlt]
    · have hdiv : n / 128 ≠ 0 := by omega
      have hlog : n.log2 = (n / 128).log2 + 7 := by
        rw [Nat.log2_eq_iff (by omega)]
        have h₁ := Nat.log2_self_le hdiv
        have h₂ := @Nat.lt_log2_self (n / 128)
        have hlow : 2 ^ ((n / 128).log2 + 7) = 2 ^ (n / 128).log2 * 128 := Nat.pow_add 2 _ 7
        have hhigh : 2 ^ ((n / 128).log2 + 7 + 1) = 2 ^ (n / 128).log2 * 256 := Nat.pow_add 2 _ 8
        rw [Nat.pow_succ] at h₂
        omega
      rw [if_neg hs, List.length_cons, ih (n / 128) (by omega), log2_or_one hdiv,
        log2_or_one (by omega), hlog, Nat.add_div_right _ (by omega)]

theorem encodedLen_eq_length {n : ℕ} (hn : n < 2 ^ 64) : encodedLen n = (encode n).length := by
  have hbits : (n ||| 1).log2 < 64 :=
    (Nat.log2_lt (by
      intro h
      exact absurd (Nat.or_eq_zero_iff.mp h).2 (by omega))).mpr
      (Nat.or_lt_two_pow hn (by norm_num))
  rw [length_encode, encodedLen]
  generalize (n ||| 1).log2 = bits at hbits ⊢
  interval_cases bits <;> rfl

end PlaneArchive.Wire.Varint
