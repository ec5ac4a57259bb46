import Mathlib.Order.Bounds.Defs
import Mathlib.Tactic.Ring
import PlaneArchive.Padding

/-! # Rounding up to whole pages

The word computation agrees with rounding up on unbounded numbers wherever its result fits, and
gives up where it does not. The padded length of a word is therefore the least multiple of the page
among the words that cover the length, and nothing wraps on the way to it.
-/
namespace PlaneArchive

variable {len unit total size i : ℕ}

theorem lt_pieces_iff (hs : 0 < size) : i < pieces total size ↔ i * size < total := by
  have hd : i + 1 ≤ (total + size - 1) / size ↔ (i + 1) * size ≤ total + size - 1 :=
    Nat.le_div_iff_mul_le hs
  have hm : (i + 1) * size = i * size + size := by ring
  rw [hm] at hd
  unfold pieces
  omega

theorem dvd_roundUp (len unit : ℕ) : unit ∣ roundUp len unit := Dvd.intro_left _ rfl

theorem le_roundUp (hu : 0 < unit) (len : ℕ) : len ≤ roundUp len unit := by
  by_contra hn
  have hlt : pieces len unit < pieces len unit := (lt_pieces_iff hu).mpr (by
    unfold roundUp at hn
    omega)
  exact lt_irrefl _ hlt

theorem roundUp_lt (hu : 0 < unit) (len : ℕ) : roundUp len unit < len + unit := by
  have hle : pieces len unit * unit ≤ len + unit - 1 := Nat.div_mul_le_self _ _
  unfold roundUp
  omega

/-- Rounding up gives the least multiple of the unit that is large enough. -/
theorem isLeast_roundUp (hu : 0 < unit) (len : ℕ) :
    IsLeast {m | unit ∣ m ∧ len ≤ m} (roundUp len unit) := by
  constructor
  · exact ⟨dvd_roundUp len unit, le_roundUp hu len⟩
  · rintro m ⟨⟨k, rfl⟩, hm⟩
    by_contra hn
    rw [Nat.not_le, Nat.mul_comm] at hn
    have hk : k < pieces len unit := Nat.lt_of_mul_lt_mul_right hn
    have hshort := (lt_pieces_iff hu).mp hk
    rw [Nat.mul_comm] at hm
    omega

/-- The multiple of `unit` between `len` and `len + unit` is unique. -/
theorem roundUp_eq_of_bounds {m : ℕ} (hu : 0 < unit) (hd : unit ∣ m) (hl : len ≤ m)
    (hm : m < len + unit) : roundUp len unit = m := by
  obtain ⟨a, rfl⟩ := hd
  obtain ⟨b, hb⟩ := dvd_roundUp len unit
  have h₁ := le_roundUp hu len
  have h₂ := roundUp_lt hu len
  rw [hb] at h₁ h₂ ⊢
  have hab : a < b + 1 := Nat.lt_of_mul_lt_mul_left (a := unit) (by
    rw [Nat.mul_add, Nat.mul_one]
    omega)
  have hba : b < a + 1 := Nat.lt_of_mul_lt_mul_left (a := unit) (by
    rw [Nat.mul_add, Nat.mul_one]
    omega)
  have : a = b := by omega
  rw [this]

theorem roundUp_of_dvd (hu : 0 < unit) (hd : unit ∣ len) : roundUp len unit = len :=
  roundUp_eq_of_bounds hu hd le_rfl (by omega)

theorem roundUp_of_mod_ne_zero (hu : 0 < unit) (hr : len % unit ≠ 0) :
    roundUp len unit = len + (unit - len % unit) := by
  have hlt := Nat.mod_lt len hu
  have hdm := Nat.div_add_mod len unit
  apply roundUp_eq_of_bounds hu _ (by omega) (by omega)
  refine ⟨len / unit + 1, ?_⟩
  rw [Nat.mul_add, Nat.mul_one]
  omega

theorem roundUp_mono {a b : ℕ} (h : a ≤ b) (unit : ℕ) : roundUp a unit ≤ roundUp b unit := by
  have hpieces : pieces a unit ≤ pieces b unit := Nat.div_le_div_right (by omega)
  exact Nat.mul_le_mul_right unit hpieces

/-- Whole units in front stay as they are. -/
theorem roundUp_add_of_dvd {whole : ℕ} (hu : 0 < unit) (hd : unit ∣ whole) (len : ℕ) :
    roundUp (whole + len) unit = whole + roundUp len unit := by
  have hle := le_roundUp hu len
  have hlt := roundUp_lt hu len
  exact roundUp_eq_of_bounds hu (Nat.dvd_add hd (dvd_roundUp len unit)) (by omega) (by omega)

theorem checkedAdd_eq_some_iff {a b m : UInt64} :
    checkedAdd a b = some m ↔ m.toNat = a.toNat + b.toNat := by
  have ha := a.toNat_lt
  have hb := b.toNat_lt
  have hm := m.toNat_lt
  have hsum : (a + b).toNat = (a.toNat + b.toNat) % 2 ^ 64 := UInt64.toNat_add a b
  simp only [checkedAdd, UInt64.lt_iff_toNat_lt]
  split
  · constructor
    · intro h
      cases h
    · intro h
      omega
  · rw [Option.some.injEq, ← UInt64.toNat_inj]
    omega

theorem toNat_add_of_lt {a b : UInt64} (h : a.toNat + b.toNat < UInt64.size) :
    (a + b).toNat = a.toNat + b.toNat := by
  rw [UInt64.toNat_add]
  exact Nat.mod_eq_of_lt h

theorem toNat_pos_of_ne_zero {page : UInt64} (h : page ≠ 0) : 0 < page.toNat := by
  apply Nat.pos_of_ne_zero
  intro hz
  exact h (UInt64.toNat_inj.mp hz)

/-- The words on the way to a padded length are the numbers that they stand for: what exceeds the
whole pages, and what this excess lacks of a page. Returned is the length as it is, or else the
exact sum if that is a word. -/
structure ExactSteps (len page : UInt64) : Prop where
  excess_eq : (len % page).toNat = len.toNat % page.toNat
  missing_eq : (page - len % page).toNat + (len % page).toNat = page.toNat
  of_whole : len % page = 0 → paddedLen len page = some len
  of_excess : len % page ≠ 0 → ∀ m : UInt64,
    paddedLen len page = some m ↔ m.toNat = len.toNat + (page - len % page).toNat

/-- The numbers of bytes in whole pages that cover a length and fit a word. -/
def coverings (len page : UInt64) : Set ℕ :=
  {n | page.toNat ∣ n ∧ len.toNat ≤ n ∧ n < UInt64.size}

section Words

variable {len page m : UInt64}

theorem exactSteps (hp : page ≠ 0) (len : UInt64) : ExactSteps len page where
  excess_eq := UInt64.toNat_mod len page
  missing_eq := by
    -- the excess is below a page, so that the subtraction borrows nothing
    have hexcess : (len % page).toNat < page.toNat := by
      rw [UInt64.toNat_mod]
      exact Nat.mod_lt _ (toNat_pos_of_ne_zero hp)
    rw [UInt64.toNat_sub_of_le _ _ (UInt64.le_iff_toNat_le.mpr hexcess.le)]
    exact Nat.sub_add_cancel hexcess.le
  of_whole := by
    intro hz
    simp [paddedLen, hp, hz]
  of_excess := by
    intro hz m
    simp only [paddedLen, hp, hz, if_false]
    exact checkedAdd_eq_some_iff

/-- The padded length of a word exists exactly where the rounded number fits a word. -/
theorem paddedLen_eq_some_iff :
    paddedLen len page = some m ↔ page ≠ 0 ∧ m.toNat = roundUp len.toNat page.toNat := by
  by_cases hp : page = 0
  · simp [paddedLen, hp]
  have hpos := toNat_pos_of_ne_zero hp
  have hsteps := exactSteps hp len
  simp only [hp, ne_eq, not_false_eq_true, true_and]
  by_cases hz : len % page = 0
  · have hmod : len.toNat % page.toNat = 0 := by
      rw [← hsteps.excess_eq, hz]
      rfl
    rw [hsteps.of_whole hz, roundUp_of_dvd hpos (Nat.dvd_of_mod_eq_zero hmod), Option.some.injEq,
      ← UInt64.toNat_inj, eq_comm]
  · have hmod : len.toNat % page.toNat ≠ 0 := by
      rw [← hsteps.excess_eq]
      intro h
      exact hz (UInt64.toNat_inj.mp h)
    have hmissing := hsteps.missing_eq
    rw [hsteps.excess_eq] at hmissing
    rw [hsteps.of_excess hz, roundUp_of_mod_ne_zero hpos hmod]
    omega

theorem paddedLen_of_lt (hp : page ≠ 0) (hs : roundUp len.toNat page.toNat < UInt64.size) :
    paddedLen len page = some (UInt64.ofNat (roundUp len.toNat page.toNat)) :=
  paddedLen_eq_some_iff.mpr ⟨hp, UInt64.toNat_ofNat_of_lt hs⟩

theorem paddedLen_eq_none_iff :
    paddedLen len page = none ↔ page = 0 ∨ UInt64.size ≤ roundUp len.toNat page.toNat := by
  rw [Option.eq_none_iff_forall_ne_some]
  constructor
  · intro h
    by_contra hn
    rw [not_or, Nat.not_le] at hn
    exact h _ (paddedLen_of_lt hn.1 hn.2)
  · intro h m hm
    obtain ⟨hp, hround⟩ := paddedLen_eq_some_iff.mp hm
    have hlt := m.toNat_lt_size
    rcases h with hz | hs
    · exact hp hz
    · omega

theorem isLeast_coverings_iff (hp : page ≠ 0) {n : ℕ} :
    IsLeast (coverings len page) n ↔ n = roundUp len.toNat page.toNat ∧ n < UInt64.size := by
  obtain ⟨⟨hdvd, hle⟩, hround⟩ := isLeast_roundUp (toNat_pos_of_ne_zero hp) len.toNat
  constructor
  · rintro ⟨⟨hd, hl, hlt⟩, hleast⟩
    have hlower : roundUp len.toNat page.toNat ≤ n := hround ⟨hd, hl⟩
    have hupper : n ≤ roundUp len.toNat page.toNat := hleast ⟨hdvd, hle, hlower.trans_lt hlt⟩
    exact ⟨le_antisymm hupper hlower, hlt⟩
  · rintro ⟨rfl, hlt⟩
    exact ⟨⟨hdvd, hle, hlt⟩, fun n hn => hround ⟨hn.1, hn.2.1⟩⟩

theorem coverings_eq_empty_iff (hp : page ≠ 0) :
    coverings len page = ∅ ↔ UInt64.size ≤ roundUp len.toNat page.toNat := by
  obtain ⟨⟨hdvd, hle⟩, hround⟩ := isLeast_roundUp (toNat_pos_of_ne_zero hp) len.toNat
  constructor
  · intro h
    by_contra hn
    have hmem : roundUp len.toNat page.toNat ∈ coverings len page :=
      ⟨hdvd, hle, Nat.lt_of_not_le hn⟩
    rw [h] at hmem
    exact hmem
  · intro h
    apply Set.eq_empty_of_forall_notMem
    rintro n ⟨hd, hl, hlt⟩
    have hlower : roundUp len.toNat page.toNat ≤ n := hround ⟨hd, hl⟩
    omega

section Padded

variable (h : paddedLen len page = some m)
include h

theorem exists_paddedLen_of_le {shorter : UInt64} (hle : shorter ≤ len) :
    ∃ n ≤ m, paddedLen shorter page = some n := by
  obtain ⟨hp, hm⟩ := paddedLen_eq_some_iff.mp h
  have hmono : roundUp shorter.toNat page.toNat ≤ m.toNat := by
    rw [hm]
    exact roundUp_mono (UInt64.le_iff_toNat_le.mp hle) _
  have hword := hmono.trans_lt m.toNat_lt_size
  refine ⟨_, ?_, paddedLen_of_lt hp hword⟩
  rw [UInt64.le_iff_toNat_le]
  exact (UInt64.toNat_ofNat_of_lt hword).trans_le hmono

theorem paddedLen_of_padded : paddedLen m page = some m := by
  obtain ⟨hp, hm⟩ := paddedLen_eq_some_iff.mp h
  have hd : page.toNat ∣ m.toNat := by
    rw [hm]
    exact dvd_roundUp _ _
  rw [paddedLen_eq_some_iff, roundUp_of_dvd (toNat_pos_of_ne_zero hp) hd]
  exact ⟨hp, rfl⟩

theorem le_of_paddedLen : len ≤ m := by
  obtain ⟨hp, hm⟩ := paddedLen_eq_some_iff.mp h
  rw [UInt64.le_iff_toNat_le, hm]
  exact le_roundUp (toNat_pos_of_ne_zero hp) _

theorem sub_lt_of_paddedLen : m.toNat - len.toNat < page.toNat := by
  obtain ⟨hp, hm⟩ := paddedLen_eq_some_iff.mp h
  have hlt := roundUp_lt (toNat_pos_of_ne_zero hp) len.toNat
  have hle := UInt64.le_iff_toNat_le.mp (le_of_paddedLen h)
  omega

/-- Whole pages in front of a length are in front of its padded length too, and neither of the two
sums wraps as long as the greater is a word. -/
theorem paddedLen_add_of_dvd {whole : UInt64} (hd : page.toNat ∣ whole.toNat)
    (hs : whole.toNat + m.toNat < UInt64.size) :
    (whole + len).toNat = whole.toNat + len.toNat ∧
      (whole + m).toNat = whole.toNat + m.toNat ∧
      paddedLen (whole + len) page = some (whole + m) := by
  obtain ⟨hp, hm⟩ := paddedLen_eq_some_iff.mp h
  have hle := UInt64.le_iff_toNat_le.mp (le_of_paddedLen h)
  have hsum : (whole + m).toNat = whole.toNat + m.toNat := toNat_add_of_lt hs
  have hlen : (whole + len).toNat = whole.toNat + len.toNat := toNat_add_of_lt (by omega)
  refine ⟨hlen, hsum, paddedLen_eq_some_iff.mpr ⟨hp, ?_⟩⟩
  rw [hlen, hsum, roundUp_add_of_dvd (toNat_pos_of_ne_zero hp) hd, hm]

end Padded

/-- The padded length is the least number of bytes in whole pages that covers the length, and there
is none exactly if pages have no bytes or no word covers the length so. Nothing wraps on the way. A
shorter length is padded to no more, a padded length to itself, whole pages in front stay as they
are, and less than a page is added. -/
theorem paddedLen_least_multiple (len page : UInt64) :
    (∀ m, paddedLen len page = some m ↔ 0 < page ∧ IsLeast (coverings len page) m.toNat) ∧
    (paddedLen len page = none ↔ page = 0 ∨ coverings len page = ∅) ∧
    (page ≠ 0 → ExactSteps len page) ∧
    ∀ m, paddedLen len page = some m →
      (∀ shorter ≤ len, ∃ n ≤ m, paddedLen shorter page = some n) ∧
      paddedLen m page = some m ∧
      (∀ whole : UInt64, page.toNat ∣ whole.toNat → whole.toNat + m.toNat < UInt64.size →
        (whole + len).toNat = whole.toNat + len.toNat ∧
          (whole + m).toNat = whole.toNat + m.toNat ∧
          paddedLen (whole + len) page = some (whole + m)) ∧
      len ≤ m ∧ m.toNat - len.toNat < page.toNat := by
  have hpos : 0 < page ↔ page ≠ 0 := UInt64.pos_iff_ne_zero
  refine ⟨?_, ?_, fun hp => exactSteps hp len, ?_⟩
  · intro m
    rw [paddedLen_eq_some_iff, hpos]
    apply and_congr_right
    intro hp
    rw [isLeast_coverings_iff hp, and_iff_left m.toNat_lt_size]
  · rw [paddedLen_eq_none_iff]
    -- without bytes in a page, the empty length would still be covered by zero
    by_cases hp : page = 0
    · simp [hp]
    · rw [coverings_eq_empty_iff hp]
  · intro m h
    exact ⟨fun _ => exists_paddedLen_of_le h, paddedLen_of_padded h,
      fun _ => paddedLen_add_of_dvd h, le_of_paddedLen h, sub_lt_of_paddedLen h⟩

/-- The last page of four bytes ends four bytes before the words do; what lies behind it is not
covered. -/
theorem paddedLen_least_multiple_lastPage :
    paddedLen 18446744073709551609 4 = some 18446744073709551612 ∧
    IsLeast (coverings 18446744073709551609 4) 18446744073709551612 ∧
    coverings 18446744073709551613 4 = ∅ ∧
    paddedLen 9 4 = some 12 ∧
    paddedLen (18446744073709551600 + 9) 4 = some (18446744073709551600 + 12) := by
  have hlast : paddedLen 18446744073709551609 4 = some 18446744073709551612 := by decide
  have hnine : paddedLen 9 4 = some 12 := by decide
  obtain ⟨hleast, -, -, -⟩ := paddedLen_least_multiple 18446744073709551609 4
  obtain ⟨-, hnone, -, -⟩ := paddedLen_least_multiple 18446744073709551613 4
  obtain ⟨-, -, -, hlaws⟩ := paddedLen_least_multiple 9 4
  obtain ⟨-, -, hwhole, -, -⟩ := hlaws 12 hnine
  obtain ⟨-, -, hsum⟩ := hwhole 18446744073709551600 (by decide) (by decide)
  have hbeyond := hnone.mp (by decide)
  exact ⟨hlast, ((hleast _).mp hlast).2, hbeyond.resolve_left (by decide), hnine, hsum⟩

end Words

end PlaneArchive
