import Bellman.Numeral.Value
import Bellman.Proofs.Rounding.Nearest

/-!
# The double of a rational number

A number is rounded to 53 binary places and then to a multiple of the smallest double.
Where the first rounding leaves a number of the second kind the second one does nothing,
so it matters only below the numbers that have all their places. The result is a double
as long as it is less than the first power of two that is none.
-/

namespace Bellman

namespace Rounding

variable {p q r unit : ℚ} {places : ℕ}

/-- The multiple of the unit that is nearest, and of two of them the even one. -/
def IsNearestMultiple (unit q r : ℚ) : Prop :=
  ∃ n : ℤ, r = n * unit ∧ IsHalfEven (q / unit) n

/-- The number with so many significant binary places that is nearest. -/
def IsSignificant (places : ℕ) (q r : ℚ) : Prop :=
  q = 0 ∧ r = 0 ∨ ∃ k : ℤ, 2 ^ k ≤ |q| ∧ |q| < 2 ^ (k + 1) ∧
    IsNearestMultiple (2 ^ (k - places + 1)) q r

theorem isNearestMultiple_toMultiple (unit q : ℚ) : IsNearestMultiple unit q (toMultiple unit q) :=
  ⟨halfEven (q / unit), rfl, isHalfEven_halfEven _⟩

theorem isSignificant_toSignificant (places : ℕ) (q : ℚ) :
    IsSignificant places q (toSignificant places q) := by
  by_cases hq : q = 0
  · exact .inl ⟨hq, by simp [toSignificant, hq]⟩
  · obtain ⟨hlow, hhigh⟩ := binaryExponent_spec (abs_pos.mpr hq)
    refine .inr ⟨binaryExponent |q|, hlow, hhigh, ?_⟩
    rw [toSignificant, if_neg hq, ratAbs_eq]
    exact isNearestMultiple_toMultiple _ q

theorem IsNearestMultiple.eq (h : IsNearestMultiple unit q p) (h' : IsNearestMultiple unit q r) :
    p = r := by
  obtain ⟨m, rfl, hm⟩ := h
  obtain ⟨n, rfl, hn⟩ := h'
  rw [hm.eq hn]

theorem IsSignificant.eq (h : IsSignificant places q p) (h' : IsSignificant places q r) :
    p = r := by
  rcases h with ⟨hq, rfl⟩ | ⟨i, hi, hi', hp⟩ <;> rcases h' with ⟨hq', rfl⟩ | ⟨j, hj, hj', hr⟩
  · rfl
  · exact absurd hj (by rw [hq, abs_zero, not_le]; positivity)
  · exact absurd hi (by rw [hq', abs_zero, not_le]; positivity)
  · have hij := (zpow_lt_zpow_iff_right₀ one_lt_two).mp (hi.trans_lt hj')
    have hji := (zpow_lt_zpow_iff_right₀ one_lt_two).mp (hj.trans_lt hi')
    obtain rfl : i = j := by omega
    exact hp.eq hr

theorem two_pow_mul_zpow (n : ℕ) (e : ℤ) : ((2 ^ n : ℤ) : ℚ) * 2 ^ e = 2 ^ (e + n) := by
  push_cast
  rw [← zpow_natCast, ← zpow_add₀ two_ne_zero, add_comm]

theorem two_zpow_split (i : ℤ) (n : ℕ) : (2 : ℚ) ^ i = (2 ^ n : ℤ) * 2 ^ (i - n) := by
  rw [two_pow_mul_zpow, sub_add_cancel]

/-- A positive number stays between its powers of two. -/
theorem toSignificant_mem (hplaces : 0 < places) (hq : 0 < q) :
    2 ^ binaryExponent q ≤ toSignificant places q ∧
      toSignificant places q ≤ 2 ^ (binaryExponent q + 1) := by
  obtain ⟨hlow, hhigh⟩ := binaryExponent_spec hq
  set k := binaryExponent q
  have hunit : (0 : ℚ) < 2 ^ (k - places + 1) := by positivity
  have hpower (i : ℤ) (n : ℕ) (h : i - n = k - places + 1) :
      toMultiple (2 ^ (k - places + 1)) (2 ^ i) = 2 ^ i := by
    rw [two_zpow_split i n, h]
    exact toMultiple_intCast_mul hunit.ne' _
  rw [toSignificant, if_neg hq.ne', ratAbs_eq, abs_of_pos hq]
  constructor
  · rw [← hpower k (places - 1) (by omega)]
    exact toMultiple_mono hunit hlow
  · rw [← hpower (k + 1) places (by omega)]
    exact toMultiple_mono hunit hhigh.le

theorem toSignificant_zero (places : ℕ) : toSignificant places 0 = 0 := by
  simp [toSignificant]

theorem toSignificant_nonneg (hplaces : 0 < places) (h : 0 ≤ q) : 0 ≤ toSignificant places q := by
  rcases h.eq_or_lt with rfl | hq
  · rw [toSignificant_zero]
  · exact (zpow_nonneg zero_le_two _).trans (toSignificant_mem hplaces hq).1

/-- Rounding to significant places keeps the order. -/
theorem toSignificant_mono (hplaces : 0 < places) (h : p ≤ q) :
    toSignificant places p ≤ toSignificant places q := by
  have hpos {p q : ℚ} (hp : 0 < p) (h : p ≤ q) :
      toSignificant places p ≤ toSignificant places q := by
    have hq := hp.trans_le h
    rcases (binaryExponent_mono hp h).eq_or_lt with heq | hlt
    · rw [toSignificant, toSignificant, if_neg hp.ne', if_neg hq.ne', ratAbs_eq, ratAbs_eq,
        abs_of_pos hp, abs_of_pos hq, heq]
      exact toMultiple_mono (by positivity) h
    · calc toSignificant places p ≤ 2 ^ (binaryExponent p + 1) := (toSignificant_mem hplaces hp).2
        _ ≤ 2 ^ binaryExponent q := zpow_le_zpow_right₀ one_le_two (by omega)
        _ ≤ toSignificant places q := (toSignificant_mem hplaces hq).1
  rcases lt_or_ge 0 p with hp | hp
  · exact hpos hp h
  rcases lt_or_ge q 0 with hq | hq
  · have hneg := hpos (neg_pos.mpr hq) (neg_le_neg h)
    rw [toSignificant_neg, toSignificant_neg] at hneg
    exact neg_le_neg_iff.mp hneg
  · have hp' := toSignificant_nonneg hplaces (neg_nonneg.mpr hp)
    rw [toSignificant_neg, neg_nonneg] at hp'
    exact hp'.trans (toSignificant_nonneg hplaces hq)

theorem abs_toSignificant (hplaces : 0 < places) (q : ℚ) :
    |toSignificant places q| = toSignificant places |q| := by
  rcases le_total 0 q with h | h
  · rw [abs_of_nonneg h, abs_of_nonneg (toSignificant_nonneg hplaces h)]
  · have hneg := toSignificant_nonneg hplaces (neg_nonneg.mpr h)
    rw [toSignificant_neg] at hneg
    rw [abs_of_nonpos h, toSignificant_neg, abs_of_nonpos (neg_nonneg.mp hneg)]

end Rounding

namespace Binary64

open Rounding

variable {s : ℚ}

theorem canonical_iff {m : ℕ} {e : ℤ} :
    Canonical m e ↔ m < 2 ^ 53 ∧ -1074 ≤ e ∧ e ≤ 971 ∧ (2 ^ 52 ≤ m ∨ e = -1074) :=
  Iff.rfl

/-- The exponent of the last place of a double near a magnitude. -/
def lastPlace (s : ℚ) : ℤ :=
  max (-1074) (binaryExponent s - 52)

/-- The significand of a magnitude has 53 places, or is the next power of two; it has fewer
only at the smallest exponent. -/
theorem exists_significand (hs : 0 < s) :
    ∃ m : ℕ, halfEven (s / 2 ^ lastPlace s) = m ∧ m ≤ 2 ^ 53 ∧
      (2 ^ 52 ≤ m ∨ lastPlace s = -1074) := by
  obtain ⟨hlow, hhigh⟩ := binaryExponent_spec hs
  set e := lastPlace s with he
  have hunit : (0 : ℚ) < 2 ^ e := by positivity
  have hle : s / 2 ^ e ≤ (2 ^ 53 : ℤ) := by
    rw [div_le_iff₀ hunit, two_pow_mul_zpow]
    exact hhigh.le.trans (zpow_le_zpow_right₀ one_le_two (by simp only [lastPlace] at he; omega))
  have hmax := halfEven_mono hle
  rw [halfEven_intCast] at hmax
  have hmin : 0 ≤ halfEven (s / 2 ^ e) := by
    have hzero : ((0 : ℤ) : ℚ) ≤ s / 2 ^ e := by rw [Int.cast_zero]; positivity
    exact halfEven_intCast 0 ▸ halfEven_mono hzero
  refine ⟨(halfEven (s / 2 ^ e)).toNat, (Int.toNat_of_nonneg hmin).symm, by omega, ?_⟩
  by_cases hsmall : e = -1074
  · exact .inr hsmall
  · have hexponent : e + (52 : ℕ) = binaryExponent s := by
      simp only [lastPlace] at he
      omega
    have hge : ((2 ^ 52 : ℤ) : ℚ) ≤ s / 2 ^ e := by
      rwa [le_div_iff₀ hunit, two_pow_mul_zpow, hexponent]
    have hfull := halfEven_mono hge
    rw [halfEven_intCast] at hfull
    exact .inl (by omega)

/-- The doubles end before the first power of two that is none. -/
theorem canonical_iff_lt_limit {m : ℕ} {e : ℤ} (hm : m < 2 ^ 53) (he : -1074 ≤ e)
    (hfull : 2 ^ 52 ≤ m ∨ e = -1074) : Canonical m e ↔ (m : ℚ) * 2 ^ e < 2 ^ 1024 := by
  have hlimit : (2 : ℚ) ^ 1024 = 2 ^ (1024 : ℤ) := (zpow_natCast 2 1024).symm
  rw [canonical_iff, hlimit]
  constructor
  · rintro ⟨-, -, hmax, -⟩
    have hm' : (m : ℚ) < (2 ^ 53 : ℤ) := by exact_mod_cast hm
    calc (m : ℚ) * 2 ^ e < (2 ^ 53 : ℤ) * 2 ^ e := by gcongr
      _ = 2 ^ (e + 53) := two_pow_mul_zpow 53 e
      _ ≤ 2 ^ (1024 : ℤ) := zpow_le_zpow_right₀ one_le_two (by omega)
  · intro hlt
    refine ⟨hm, he, ?_, hfull⟩
    by_contra! hmax
    have hm' : ((2 ^ 52 : ℤ) : ℚ) ≤ m := by exact_mod_cast hfull.resolve_right (by omega)
    refine absurd hlt (not_lt.mpr ?_)
    calc (2 : ℚ) ^ (1024 : ℤ) ≤ 2 ^ (e + 52) := zpow_le_zpow_right₀ one_le_two (by omega)
      _ = (2 ^ 52 : ℤ) * 2 ^ e := (two_pow_mul_zpow 52 e).symm
      _ ≤ m * 2 ^ e := by gcongr

/-- A magnitude is rounded to a multiple of its last place. If the significand was rounded
up to the next power of two, the exponent grows. -/
theorem round_eq (negative : Bool) (hs : 0 < s) {m : ℕ}
    (hm : halfEven (s / 2 ^ lastPlace s) = m) :
    round negative s =
      if h : Canonical m (lastPlace s) then .finite negative m (lastPlace s) h
      else if h : Canonical (m / 2) (lastPlace s + 1) then
        .finite negative (m / 2) (lastPlace s + 1) h
      else .infinity negative := by
  have hscale : s * 2 ^ (-lastPlace s) = s / 2 ^ lastPlace s := by rw [zpow_neg, div_eq_mul_inv]
  have hm' : (halfEven (s * 2 ^ (-lastPlace s))).toNat = m := by
    rw [hscale, hm, Int.toNat_natCast]
  rw [round, if_neg hs.ne', ← hm']
  rfl

/-- The multiple of the last place is a double, unless it is too large. -/
theorem round_spec (negative : Bool) (hs : 0 < s) :
    (toMultiple (2 ^ lastPlace s) s < 2 ^ 1024 →
      ∃ m e h, round negative s = .finite negative m e h ∧
        m * 2 ^ e = toMultiple (2 ^ lastPlace s) s) ∧
    (2 ^ 1024 ≤ toMultiple (2 ^ lastPlace s) s → round negative s = .infinity negative) := by
  obtain ⟨m, hm, hle, hfull⟩ := exists_significand hs
  have hvalue : toMultiple (2 ^ lastPlace s) s = m * 2 ^ lastPlace s := by
    rw [toMultiple, hm, Int.cast_natCast]
  have hlast : -1074 ≤ lastPlace s := le_max_left _ _
  rw [round_eq negative hs hm, hvalue, ← not_lt]
  set e := lastPlace s
  rcases hle.lt_or_eq with hlt | rfl
  · rw [← canonical_iff_lt_limit hlt hlast hfull]
    refine ⟨fun h => ⟨m, e, h, dif_pos h, rfl⟩, fun h => ?_⟩
    have hnext : ¬ Canonical (m / 2) (e + 1) := by rw [canonical_iff] at h ⊢; omega
    rw [dif_neg h, dif_neg hnext]
  · have hpower : ¬ Canonical (2 ^ 53) e := by rw [canonical_iff]; omega
    have hhalf : ((2 ^ 53 : ℕ) : ℚ) * 2 ^ e = (2 ^ 53 / 2 : ℕ) * 2 ^ (e + 1) := by
      rw [zpow_add_one₀ two_ne_zero]
      norm_num
      ring
    rw [dif_neg hpower, hhalf,
      ← canonical_iff_lt_limit (by decide) (hlast.trans (by omega)) (.inl (by decide))]
    exact ⟨fun h => ⟨_, _, h, dif_pos h, rfl⟩, fun h => dif_neg h⟩

end Binary64

namespace Numeral.Value

open Rounding Binary64

variable {q : ℚ}

/-- A multiple of a power of two is a multiple of every smaller one. -/
theorem toMultiple_two_zpow {i j : ℤ} (h : i ≤ j) (n : ℤ) :
    toMultiple (2 ^ i) (n * 2 ^ j) = n * 2 ^ j := by
  obtain ⟨k, rfl⟩ := Int.le.dest h
  have hsplit : (n : ℚ) * 2 ^ (i + k) = ((n * 2 ^ k : ℤ) : ℚ) * 2 ^ i := by
    rw [zpow_add₀ two_ne_zero, zpow_natCast]
    push_cast
    ring
  rw [hsplit]
  exact toMultiple_intCast_mul (by positivity) _

/-- A number of 53 places is a multiple of its last place, so it loses nothing but what the
smallest double cannot tell. -/
theorem toMultiple_lastPlace (hq : 0 < q) :
    toMultiple (2 ^ lastPlace (toSignificant 53 q)) (toSignificant 53 q) =
      toMultiple (2 ^ (-1074 : ℤ)) (toSignificant 53 q) := by
  obtain ⟨hlow, hhigh⟩ := toSignificant_mem (show 0 < 53 by decide) hq
  have hmultiple : ∃ n : ℤ, toSignificant 53 q = n * 2 ^ (binaryExponent q - 52) := by
    refine ⟨halfEven (q / 2 ^ (binaryExponent q - 52)), ?_⟩
    have hplace : binaryExponent q - (53 : ℕ) + 1 = binaryExponent q - 52 := by omega
    rw [toSignificant, if_neg hq.ne', ratAbs_eq, abs_of_pos hq, hplace, toMultiple]
  set s := toSignificant 53 q
  have hs : 0 < s := lt_of_lt_of_le (by positivity) hlow
  obtain ⟨hlow', hhigh'⟩ := binaryExponent_spec hs
  have hle : binaryExponent q ≤ binaryExponent s := by
    have := (zpow_lt_zpow_iff_right₀ one_lt_two).mp (hlow.trans_lt hhigh')
    omega
  have hplace : ∃ n : ℤ, s = n * 2 ^ (binaryExponent s - 52) := by
    rcases hle.eq_or_lt with heq | hlt
    · rwa [heq] at hmultiple
    · have hs' : s = 2 ^ binaryExponent s :=
        le_antisymm (hhigh.trans (zpow_le_zpow_right₀ one_le_two (by omega))) hlow'
      exact ⟨2 ^ 52, hs'.trans (two_zpow_split _ 52)⟩
  obtain ⟨n, hn⟩ := hplace
  rcases le_total (-1074) (binaryExponent s - 52) with h | h
  · have hlast : lastPlace s = binaryExponent s - 52 := max_eq_right h
    rw [hlast]
    calc toMultiple (2 ^ (binaryExponent s - 52)) s
        = toMultiple (2 ^ (binaryExponent s - 52)) (n * 2 ^ (binaryExponent s - 52)) := by rw [← hn]
      _ = n * 2 ^ (binaryExponent s - 52) := toMultiple_two_zpow le_rfl n
      _ = toMultiple (2 ^ (-1074 : ℤ)) (n * 2 ^ (binaryExponent s - 52)) :=
        (toMultiple_two_zpow h n).symm
      _ = toMultiple (2 ^ (-1074 : ℤ)) s := by rw [← hn]
  · rw [lastPlace, max_eq_left h]

/-- A number rounded to 53 places and then to a multiple of the smallest double. -/
def rounded (q : ℚ) : ℚ :=
  toMultiple (2 ^ (-1074 : ℤ)) (toSignificant 53 q)

theorem rounded_mono {p q : ℚ} (h : p ≤ q) : rounded p ≤ rounded q :=
  toMultiple_mono (by positivity) (toSignificant_mono (by decide) h)

theorem rounded_neg (q : ℚ) : rounded (-q) = -rounded q := by
  rw [rounded, toSignificant_neg, toMultiple_neg, rounded]

theorem rounded_zero : rounded 0 = 0 := by
  have h := rounded_neg 0
  rw [neg_zero] at h
  linarith

theorem rounded_nonneg (h : 0 ≤ q) : 0 ≤ rounded q :=
  rounded_zero ▸ rounded_mono h

theorem abs_rounded (q : ℚ) : |rounded q| = rounded |q| := by
  rcases le_total 0 q with h | h
  · rw [abs_of_nonneg h, abs_of_nonneg (rounded_nonneg h)]
  · have hneg := rounded_nonneg (neg_nonneg.mpr h)
    rw [abs_of_nonpos h, rounded_neg] at *
    exact abs_of_nonpos (by linarith)

/-- A rational number has the double of its two roundings, under its own sign, unless these
are too large. -/
theorem roundRat_spec (q : ℚ) :
    (|rounded q| < 2 ^ 1024 → (roundRat q).isFinite = true ∧ (roundRat q).toRat = rounded q ∧
      (roundRat q).isNegative = decide (q < 0)) ∧
    (2 ^ 1024 ≤ |rounded q| → (roundRat q).isFinite = false) := by
  by_cases hq : q = 0
  · subst hq
    have hzero : roundRat 0 = signedZero false := by
      rw [roundRat, toSignificant_zero, ratAbs_eq, abs_zero, round_zero]
      rfl
    have hnot : ¬ (2 : ℚ) ^ 1024 ≤ 0 := not_le.mpr (by positivity)
    rw [hzero, rounded_zero, abs_zero]
    exact ⟨fun _ => ⟨rfl, toRat_signedZero false, rfl⟩, fun h => absurd h hnot⟩
  · have hpos : 0 < |q| := abs_pos.mpr hq
    have hs : 0 < toSignificant 53 |q| :=
      lt_of_lt_of_le (by positivity) (toSignificant_mem (by decide) hpos).1
    have hround : roundRat q = round (decide (q < 0)) (toSignificant 53 |q|) := by
      rw [roundRat, ratAbs_eq, abs_toSignificant (by decide)]
    obtain ⟨hfinite, hinfinite⟩ := round_spec (decide (q < 0)) hs
    rw [toMultiple_lastPlace hpos] at hfinite hinfinite
    rw [hround, abs_rounded]
    refine ⟨fun h => ?_, fun h => by rw [hinfinite h]; rfl⟩
    obtain ⟨m, e, hcanonical, hfinite, hvalue⟩ := hfinite h
    rw [hfinite]
    refine ⟨rfl, ?_, rfl⟩
    have habs : (m : ℚ) * 2 ^ e = rounded |q| := hvalue
    rw [toRat, habs]
    by_cases hneg : q < 0
    · rw [if_pos (by simpa using hneg), abs_of_neg hneg, rounded_neg, neg_neg]
    · rw [if_neg (by simpa using hneg), abs_of_nonneg (not_lt.mp hneg)]

end Numeral.Value

end Bellman
