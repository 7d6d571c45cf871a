import Bellman.Proofs.Rounding.Double

/-!
# No double is closer

Two whole numbers are at least one apart, so a whole number within one half is a closest one.
On the scale of the last place this holds of the rounding to 53 places: the doubles as large as
the first place of a number are multiples of its last place, and smaller ones are farther off
than the power of two at the first place, which is a multiple itself.

Rounding in two steps would spoil this below the numbers that have all their places, so these
are left out.
-/

namespace Bellman

namespace Rounding

variable {unit q : ℚ}

/-- No whole number is closer than the rounding. -/
theorem abs_halfEven_sub_le (q : ℚ) (n : ℤ) : |(halfEven q : ℚ) - q| ≤ |(n : ℚ) - q| := by
  have hnear := (isHalfEven_halfEven q).near
  rw [abs_sub_comm] at hnear
  rcases eq_or_ne (halfEven q) n with heq | hne
  · rw [heq]
  · have hstep : (1 : ℚ) ≤ |(halfEven q : ℚ) - n| := by
      exact_mod_cast Int.one_le_abs (sub_ne_zero.mpr hne)
    have htriangle := abs_sub_le (halfEven q : ℚ) q n
    rw [abs_sub_comm q] at htriangle
    linarith

/-- No multiple of the unit is closer than the rounding. -/
theorem abs_toMultiple_sub_le_of_mul (hunit : 0 < unit) (q : ℚ) (n : ℤ) :
    |toMultiple unit q - q| ≤ |n * unit - q| := by
  have hscale (m : ℤ) : |(m : ℚ) * unit - q| = |(m : ℚ) - q / unit| * unit := by
    rw [← abs_of_pos hunit, ← abs_mul, abs_of_pos hunit, sub_mul, div_mul_cancel₀ q hunit.ne']
  rw [toMultiple, hscale, hscale]
  exact mul_le_mul_of_nonneg_right (abs_halfEven_sub_le _ n) hunit.le

/-- A number less than one half away from a whole number is rounded to it. -/
theorem halfEven_eq_of_abs_lt {n : ℤ} (h : |(n : ℚ) - q| < 1 / 2) : halfEven q = n := by
  by_contra hne
  have hnear := (isHalfEven_halfEven q).near
  have hstep : (1 : ℚ) ≤ |(halfEven q : ℚ) - n| := by
    exact_mod_cast Int.one_le_abs (sub_ne_zero.mpr hne)
  have htriangle := abs_sub_le (halfEven q : ℚ) q n
  rw [abs_sub_comm (halfEven q : ℚ) q, abs_sub_comm q (n : ℚ)] at htriangle
  linarith

end Rounding

namespace Binary64

open Rounding

/-- The value of a double is a whole multiple of a power of two within limits; where there is
no value, zero stands for it. -/
theorem exists_abs_toRat_eq (x : Binary64) :
    ∃ (m : ℕ) (e : ℤ), m < 2 ^ 53 ∧ -1074 ≤ e ∧ e ≤ 971 ∧ |x.toRat| = m * 2 ^ e := by
  cases x with
  | nan => exact ⟨0, 0, by decide, by decide, by decide, by simp [toRat]⟩
  | infinity s => exact ⟨0, 0, by decide, by decide, by decide, by simp [toRat]⟩
  | finite s m e h =>
      obtain ⟨hm, hlow, hhigh, -⟩ := canonical_iff.mp h
      refine ⟨m, e, hm, hlow, hhigh, ?_⟩
      have hpos : (0 : ℚ) ≤ m * 2 ^ e := by positivity
      cases s
      · exact abs_of_nonneg hpos
      · exact (abs_neg _).trans (abs_of_nonneg hpos)

/-- A multiple with a sign, from one without. -/
theorem exists_int_mul_of_abs {q unit : ℚ} {m : ℕ} (h : |q| = m * unit) :
    ∃ n : ℤ, q = n * unit := by
  rcases abs_choice q with hq | hq
  · exact ⟨m, by rw [← hq, h]; norm_num⟩
  · refine ⟨-m, ?_⟩
    rw [h] at hq
    push_cast
    linarith

/-- A multiple of a power of two is a multiple of every smaller one. -/
theorem exists_int_mul_two_zpow {q : ℚ} {m : ℕ} {i j : ℤ} (hij : i ≤ j) (h : |q| = m * 2 ^ j) :
    ∃ n : ℤ, q = n * 2 ^ i := by
  obtain ⟨k, rfl⟩ := Int.le.dest hij
  have hmul : |q| = (m * 2 ^ k : ℕ) * 2 ^ i := by
    rw [h, zpow_add₀ two_ne_zero, zpow_natCast]
    push_cast
    ring
  exact exists_int_mul_of_abs hmul

/-- Every double is a multiple of the smallest one. -/
theorem exists_toRat_eq_mul (x : Binary64) : ∃ n : ℤ, x.toRat = n * 2 ^ (-1074 : ℤ) := by
  obtain ⟨m, e, -, hlow, -, hx⟩ := x.exists_abs_toRat_eq
  exact exists_int_mul_two_zpow hlow hx

/-- A double as large as a power of two is a multiple of that power's last place. -/
theorem exists_toRat_eq_mul_of_le {x : Binary64} {k : ℤ} (h : 2 ^ k ≤ |x.toRat|) :
    ∃ n : ℤ, x.toRat = n * 2 ^ (k - 52) := by
  obtain ⟨m, e, hm, -, -, hx⟩ := x.exists_abs_toRat_eq
  have hlt : (2 : ℚ) ^ k < 2 ^ (e + 53) := by
    calc (2 : ℚ) ^ k ≤ m * 2 ^ e := hx ▸ h
      _ < (2 ^ 53 : ℤ) * 2 ^ e := by
        have hm' : (m : ℚ) < (2 ^ 53 : ℤ) := by exact_mod_cast hm
        gcongr
      _ = 2 ^ (e + 53) := two_pow_mul_zpow 53 e
  have hexponent := (zpow_lt_zpow_iff_right₀ one_lt_two).mp hlt
  exact exists_int_mul_two_zpow (by omega) hx

/-- The largest double is a whole last place below the limit. -/
theorem abs_toRat_le (x : Binary64) : |x.toRat| ≤ 2 ^ 1024 - 2 ^ 971 := by
  obtain ⟨m, e, hm, -, hhigh, hx⟩ := x.exists_abs_toRat_eq
  have hm' : (m : ℚ) ≤ 2 ^ 53 - 1 := by
    have hle : m + 1 ≤ 2 ^ 53 := hm
    have : ((m + 1 : ℕ) : ℚ) ≤ (2 ^ 53 : ℕ) := by exact_mod_cast hle
    push_cast at this
    linarith
  calc |x.toRat| = m * 2 ^ e := hx
    _ ≤ (2 ^ 53 - 1) * 2 ^ (971 : ℤ) := by
      gcongr
      norm_num
    _ = 2 ^ 1024 - 2 ^ 971 := by
      rw [show (971 : ℤ) = (971 : ℕ) from rfl, zpow_natCast, sub_mul, ← pow_add, one_mul]

theorem toRat_neg (x : Binary64) : (-x).toRat = -x.toRat := by
  cases x with
  | nan => rfl
  | infinity s => rfl
  | finite s m e h =>
      cases s with
      | false => rfl
      | true => exact (neg_neg _).symm

/-- A double that is not whole is small. -/
theorem abs_toRat_lt_of_not_whole {x : Binary64} (h : ∀ n : ℤ, x.toRat ≠ n) :
    |x.toRat| < 2 ^ 52 := by
  obtain ⟨m, e, hm, -, -, hx⟩ := x.exists_abs_toRat_eq
  have he : e < 0 := by
    by_contra! he
    obtain ⟨n, hn⟩ := exists_int_mul_two_zpow he hx
    exact h n (by rw [hn, zpow_zero, mul_one])
  calc |x.toRat| = m * 2 ^ e := hx
    _ < (2 ^ 53 : ℤ) * 2 ^ (-1 : ℤ) := by
      have hm' : (m : ℚ) < (2 ^ 53 : ℤ) := by exact_mod_cast hm
      have hpow : (2 : ℚ) ^ e ≤ 2 ^ (-1 : ℤ) := zpow_le_zpow_right₀ one_le_two (by omega)
      calc (m : ℚ) * 2 ^ e < (2 ^ 53 : ℤ) * 2 ^ e := by gcongr
        _ ≤ (2 ^ 53 : ℤ) * 2 ^ (-1 : ℤ) := by gcongr
    _ = 2 ^ 52 := by norm_num

end Binary64

namespace Numeral.Value

open Rounding Binary64

variable {q : ℚ}

/-- A number with all its places is rounded once only. -/
theorem rounded_eq_toSignificant (h : 2 ^ (-1022 : ℤ) ≤ |q|) :
    rounded q = toSignificant 53 q := by
  have hpos : 0 < |q| := lt_of_lt_of_le (by positivity) h
  have hexponent : -1022 ≤ binaryExponent |q| := by
    have hlt := h.trans_lt (binaryExponent_spec hpos).2
    have := (zpow_lt_zpow_iff_right₀ one_lt_two).mp hlt
    omega
  rw [rounded, toSignificant, if_neg (abs_pos.mp hpos), ratAbs_eq, toMultiple]
  exact toMultiple_two_zpow (by push_cast; omega) _

/-- No double is closer to a positive number than its rounding. -/
theorem abs_rounded_sub_le_of_pos (h : 2 ^ (-1022 : ℤ) ≤ q) (x : Binary64) :
    |rounded q - q| ≤ |x.toRat - q| := by
  have hpos : 0 < q := lt_of_lt_of_le (by positivity) h
  obtain ⟨hlow, -⟩ := binaryExponent_spec hpos
  have hplace : binaryExponent q - (53 : ℕ) + 1 = binaryExponent q - 52 := by omega
  have hrounded : rounded q = toMultiple (2 ^ (binaryExponent q - 52)) q := by
    rw [rounded_eq_toSignificant (h.trans (le_abs_self q)), toSignificant, if_neg hpos.ne',
      ratAbs_eq, abs_of_pos hpos, hplace]
  have hclosest (n : ℤ) := abs_toMultiple_sub_le_of_mul
    (show (0 : ℚ) < 2 ^ (binaryExponent q - 52) by positivity) q n
  rw [hrounded]
  rcases le_or_gt (2 ^ binaryExponent q) x.toRat with hx | hx
  · obtain ⟨n, hn⟩ := exists_toRat_eq_mul_of_le (hx.trans (le_abs_self _))
    rw [hn]
    exact hclosest n
  · -- The power of two at the first place stands between the double and the number.
    refine (hclosest (2 ^ 52)).trans ?_
    have hpower := two_zpow_split (binaryExponent q) 52
    push_cast at hpower ⊢
    rw [← hpower, abs_sub_comm, abs_of_nonneg (sub_nonneg.mpr hlow), abs_sub_comm,
      abs_of_nonneg (by linarith)]
    linarith

/-- No double is closer to a number than its rounding, unless the number is very small. -/
theorem abs_rounded_sub_le (h : 2 ^ (-1022 : ℤ) ≤ |q|) (x : Binary64) :
    |rounded q - q| ≤ |x.toRat - q| := by
  rcases le_total 0 q with hq | hq
  · rw [abs_of_nonneg hq] at h
    exact abs_rounded_sub_le_of_pos h x
  · rw [abs_of_nonpos hq] at h
    have hneg := abs_rounded_sub_le_of_pos h (-x)
    rw [rounded_neg, toRat_neg, ← neg_sub', ← neg_sub', abs_neg, abs_neg] at hneg
    exact hneg

/-- A whole number other than zero has all its places. -/
theorem two_zpow_le_abs_intCast {n : ℤ} (hn : n ≠ 0) : (2 : ℚ) ^ (-1022 : ℤ) ≤ |(n : ℚ)| := by
  have hone : (1 : ℚ) ≤ |(n : ℚ)| := by exact_mod_cast Int.one_le_abs hn
  exact (zpow_le_one_of_nonpos₀ one_le_two (by decide)).trans hone

/-- A whole number with no more than 53 binary places is a double. -/
theorem rounded_intCast {n : ℤ} (h : |(n : ℚ)| < 2 ^ 53) : rounded n = n := by
  rcases eq_or_ne n 0 with rfl | hn
  · rw [Int.cast_zero, rounded_zero]
  · have hpos : 0 < |(n : ℚ)| := abs_pos.mpr (Int.cast_ne_zero.mpr hn)
    have hfew : binaryExponent |(n : ℚ)| < 53 := by
      have hlt := (binaryExponent_spec hpos).1.trans_lt h
      exact (zpow_lt_zpow_iff_right₀ (one_lt_two (α := ℚ))).mp (by exact_mod_cast hlt)
    have hexact := toMultiple_two_zpow (show binaryExponent |(n : ℚ)| - (53 : ℕ) + 1 ≤ 0 by
      push_cast; omega) n
    rw [zpow_zero, mul_one] at hexact
    rw [rounded_eq_toSignificant (two_zpow_le_abs_intCast hn), toSignificant,
      if_neg (Int.cast_ne_zero.mpr hn), ratAbs_eq]
    exact hexact

/-- Numbers below the 53rd place are rounded to whole numbers that are doubles. -/
theorem rounded_halfEven {q : ℚ} (h : |q| < 2 ^ 52) :
    rounded (halfEven q) = halfEven q ∧ |(halfEven q : ℚ)| < 2 ^ 53 := by
  have hnear := (isHalfEven_halfEven q).near
  have hsmall : |(halfEven q : ℚ)| < 2 ^ 53 := by
    obtain ⟨hlow, hhigh⟩ := abs_le.mp hnear
    obtain ⟨hlow', hhigh'⟩ := abs_lt.mp h
    rw [abs_lt]
    constructor <;> linarith
  exact ⟨rounded_intCast hsmall, hsmall⟩

theorem two_pow_53_lt : (2 : ℚ) ^ 53 < 2 ^ 1024 :=
  pow_lt_pow_right₀ one_lt_two (by decide)

/-- The whole number that a double is rounded to is a double. -/
theorem rounded_whole (x : Binary64) :
    rounded (halfEven x.toRat) = halfEven x.toRat ∧ |(halfEven x.toRat : ℚ)| < 2 ^ 1024 := by
  by_cases hwhole : ∃ n : ℤ, x.toRat = n
  · obtain ⟨n, hn⟩ := hwhole
    rw [hn, halfEven_intCast]
    constructor
    · rcases eq_or_ne n 0 with rfl | hne
      · rw [Int.cast_zero, rounded_zero]
      · have hclosest := abs_rounded_sub_le (two_zpow_le_abs_intCast hne) x
        rw [hn, sub_self, abs_zero] at hclosest
        exact sub_eq_zero.mp (abs_nonpos_iff.mp hclosest)
    · rw [← hn]
      exact x.abs_toRat_le.trans_lt (sub_lt_self _ (by positivity))
  · obtain ⟨hexact, hsmall⟩ := rounded_halfEven
      (abs_toRat_lt_of_not_whole (not_exists.mp hwhole))
    exact ⟨hexact, hsmall.trans two_pow_53_lt⟩

end Numeral.Value

end Bellman
