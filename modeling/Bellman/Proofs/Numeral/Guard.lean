import Bellman.Numeral.Formula
import Bellman.Proofs.Numeral.Logarithm

/-!
# What the magnitude guard lets pass

The guard compares the logarithm of a power with a limit. The logarithm, the exponent and
their product are rounded, so the comparison is off by a few roundings and no more: what
lies between the limit less one and its negative passes, and what passes does not exceed
the limit by more than a hair.

A logarithm is that of a quotient, so what passes is a bound on how far numerator and
denominator are apart. It bounds each of them only where the other is short.
-/

namespace Bellman.Numeral

open Rounding

/-- `x` is `y` but for the error of `n` roundings to 53 places, one after another. -/
def Rounded (n : ℕ) (x y : ℝ) : Prop :=
  |x - y| ≤ ((1 + 1 / 2 ^ magnitudePlaces) ^ n - 1) * |y|

namespace Rounded

variable {m n : ℕ} {x y z w : ℝ}

theorem abs_le (h : Rounded n x y) : |x| ≤ (1 + 1 / 2 ^ magnitudePlaces) ^ n * |y| := by
  have htri : |x| ≤ |x - y| + |y| := by simpa using abs_add_le (x - y) y
  unfold Rounded at h
  linarith

theorem trans (h : Rounded m x y) (h' : Rounded n y z) : Rounded (m + n) x z := by
  have hy := h'.abs_le
  unfold Rounded at h h' ⊢
  set c : ℝ := 1 + 1 / 2 ^ magnitudePlaces
  have hc : 1 ≤ c ^ m := one_le_pow₀ (by simp [c])
  calc |x - z| ≤ |x - y| + |y - z| := abs_sub_le x y z
    _ ≤ (c ^ m - 1) * |y| + (c ^ n - 1) * |z| := add_le_add h h'
    _ ≤ (c ^ m - 1) * (c ^ n * |z|) + (c ^ n - 1) * |z| := by
        gcongr
    _ = (c ^ (m + n) - 1) * |z| := by rw [pow_add]; ring

theorem mul (h : Rounded m x y) (h' : Rounded n z w) : Rounded (m + n) (x * z) (y * w) := by
  have hx := h.abs_le
  unfold Rounded at h h' ⊢
  set c : ℝ := 1 + 1 / 2 ^ magnitudePlaces
  have hc : 1 ≤ c ^ n := one_le_pow₀ (by simp [c])
  have hsplit : x * z - y * w = x * (z - w) + (x - y) * w := by ring
  calc |x * z - y * w| ≤ |x * (z - w)| + |(x - y) * w| := hsplit ▸ abs_add_le _ _
    _ = |x| * |z - w| + |x - y| * |w| := by rw [abs_mul, abs_mul]
    _ ≤ c ^ m * |y| * ((c ^ n - 1) * |w|) + (c ^ m - 1) * |y| * |w| := by
        gcongr
    _ = (c ^ (m + n) - 1) * |y * w| := by rw [pow_add, abs_mul]; ring

theorem abs (h : Rounded n x y) : Rounded n |x| |y| := by
  unfold Rounded
  rw [abs_abs]
  exact (abs_abs_sub_abs_le x y).trans h

/-- Four roundings do little. -/
theorem abs_sub_le_of_four (h : Rounded 4 x y) : |x - y| ≤ |y| / 2 ^ 50 := by
  refine le_trans h ?_
  rw [div_eq_mul_one_div |y|, mul_comm |y|]
  gcongr
  norm_num [magnitudePlaces]

theorem toSignificant (q : ℚ) : Rounded 1 (Rounding.toSignificant magnitudePlaces q : ℚ) q := by
  have h := abs_toSignificant_sub_le magnitudePlaces q
  have h' : |((Rounding.toSignificant magnitudePlaces q : ℚ) : ℝ) - q| ≤
      |(q : ℝ)| / 2 ^ magnitudePlaces := by
    simpa using (Rat.cast_le (K := ℝ)).mpr h
  unfold Rounded
  rw [pow_one, add_sub_cancel_left, one_div, inv_mul_eq_div]
  exact h'

theorem commonLog {q : ℚ} (hq : 0 < q) : Rounded 1 (Numeral.commonLog q : ℚ) (Real.logb 10 q) := by
  refine (abs_commonLog_sub_le hq).trans ?_
  rw [pow_one, add_sub_cancel_left, div_eq_mul_one_div, mul_comm]
  gcongr ?_ * _
  norm_num [magnitudePlaces]

end Rounded

section Guard

variable {b e : ℚ} {v : Value}

/-- The digits of a power are those of its logarithm, but for four roundings. -/
theorem rounded_digitsOfPower (hb : b ≠ 0) (e : ℚ) :
    Rounded 4 (Value.digitsOfPower (.rational b) (.rational e) : ℚ) |e * Real.logb 10 b| := by
  have hlog := (Rounded.toSignificant (commonLog |b|)).trans (.commonLog (abs_pos.mpr hb))
  have hmul := (Rounded.toSignificant |e|).mul hlog
  rw [← Rat.cast_mul] at hmul
  have h := ((Rounded.toSignificant _).trans hmul).abs
  rw [Rat.cast_abs, Rat.cast_abs, Real.logb_abs, abs_mul, abs_abs, ← abs_mul, ← Rat.cast_abs] at h
  show Rounded 4 (powerDigits (commonLog b.abs) e.abs : ℚ) _
  rw [ratAbs_eq, ratAbs_eq, powerDigits, ratAbs_eq]
  exact h

theorem logb_zpow (b : ℚ) (n : ℤ) :
    Real.logb 10 ((b ^ n : ℚ) : ℝ) = n * Real.logb 10 b := by
  rw [Rat.cast_zpow, Real.logb, Real.log_zpow, mul_div_assoc]
  rfl

/-- The logarithm of a magnitude lies within the limits that the magnitude lies within. -/
theorem abs_logb_le {r : ℚ} {n : ℕ} (hlow : 1 / 10 ^ n ≤ |r|) (hhigh : |r| ≤ 10 ^ n) :
    |Real.logb 10 r| ≤ n := by
  have hpos : 0 < |r| := lt_of_lt_of_le (by positivity) hlow
  have hpos' : (0 : ℝ) < |(r : ℝ)| := by exact_mod_cast hpos
  have hlow' : (1 / 10 ^ n : ℝ) ≤ |(r : ℝ)| := by
    simpa using (Rat.cast_le (K := ℝ)).mpr hlow
  have hhigh' : |(r : ℝ)| ≤ (10 ^ n : ℝ) := by
    simpa using (Rat.cast_le (K := ℝ)).mpr hhigh
  have hten : Real.logb 10 (10 ^ n : ℝ) = n := by
    rw [Real.logb_pow, Real.logb_self_eq_one (by norm_num), mul_one]
  rw [← Real.logb_abs, abs_le]
  constructor
  · rw [← hten, ← Real.logb_inv, ← one_div]
    exact Real.logb_le_logb_of_le (by norm_num) (by positivity) hlow'
  · rw [← hten]
    exact Real.logb_le_logb_of_le (by norm_num) hpos' hhigh'

/-- The shortcuts for one and minus one are powers too. -/
theorem wholePow_eq (q : ℚ) (n : ℤ) : ClosedForm.wholePow q n = q ^ n := by
  unfold ClosedForm.wholePow
  split_ifs with hone hneg heven
  · simp [hone]
  · rw [hneg, Even.neg_one_zpow (Int.even_iff.mpr heven)]
  · rw [hneg, Odd.neg_one_zpow (Int.odd_iff.mpr (by omega))]
  · rfl

theorem pow_rational (hb : b ≠ 0) (he : e.den = 1) :
    Value.pow (.rational b) (.rational e) = .rational (b ^ e.num) := by
  simp only [Value.pow, if_neg hb, Value.powRat, if_pos he, wholePow_eq]

/-- The guard decides on a whole power of a number other than zero by its digits alone. -/
theorem guardedPow_of_ne_zero (hb : b ≠ 0) (he : e.den = 1) :
    Formula.guardedPow (.rational b) (.rational e) =
      if (maxMagnitude : ℚ) < Value.digitsOfPower (.rational b) (.rational e) then
        .error (.tooManyDigits (Value.digitsOfPower (.rational b) (.rational e)).floor.toNat)
      else .ok (.rational (b ^ e.num)) := by
  simp [Formula.guardedPow, Value.knowledge, Value.isZero, hb, pow_rational hb he]

theorem intCast_num_eq (he : e.den = 1) : ((e.num : ℤ) : ℚ) = e :=
  Rat.coe_int_num_of_den_eq_one he

/-- What lies between the limit less one and its negative passes. -/
theorem guardedPow_of_range (hb : b ≠ 0) (he : e.den = 1)
    (hlow : 1 / 10 ^ (maxMagnitude - 1) ≤ |b ^ e.num|)
    (hhigh : |b ^ e.num| ≤ 10 ^ (maxMagnitude - 1)) :
    Formula.guardedPow (.rational b) (.rational e) = .ok (.rational (b ^ e.num)) := by
  have herr := (rounded_digitsOfPower hb e).abs_sub_le_of_four
  have hlog := abs_logb_le hlow hhigh
  rw [logb_zpow, ← Rat.cast_intCast, intCast_num_eq he] at hlog
  rw [abs_abs] at herr
  have hmax : ((maxMagnitude - 1 : ℕ) : ℝ) = 399 := by norm_num [maxMagnitude]
  rw [hmax] at hlog
  have hle : (Value.digitsOfPower (.rational b) (.rational e) : ℝ) ≤ 400 := by
    have := (abs_le.mp herr).2
    have hsmall : |(e : ℝ) * Real.logb 10 b| / 2 ^ 50 ≤ 1 := by
      rw [div_le_one (by positivity)]
      exact hlog.trans (by norm_num)
    linarith
  have hle' : Value.digitsOfPower (.rational b) (.rational e) ≤ maxMagnitude := by
    exact_mod_cast hle
  rw [guardedPow_of_ne_zero hb he, if_neg (not_lt.mpr hle')]

/-- What passes does not exceed the limit by more than a hair. -/
theorem of_guardedPow (hb : b ≠ 0) (he : e.den = 1)
    (h : Formula.guardedPow (.rational b) (.rational e) = .ok v) :
    v = .rational (b ^ e.num) ∧
      |Real.logb 10 ((b ^ e.num : ℚ) : ℝ)| ≤ maxMagnitude + 1 / 2 ^ 40 := by
  rw [guardedPow_of_ne_zero hb he] at h
  split_ifs at h with hdigits
  cases h
  refine ⟨rfl, ?_⟩
  have herr := (rounded_digitsOfPower hb e).abs_sub_le_of_four
  rw [logb_zpow, ← Rat.cast_intCast, intCast_num_eq he]
  rw [abs_abs] at herr
  set d := |(e : ℝ) * Real.logb 10 b|
  have hle : (Value.digitsOfPower (.rational b) (.rational e) : ℝ) ≤ maxMagnitude := by
    exact_mod_cast not_lt.mp hdigits
  have hlow := (abs_le.mp herr).1
  have hmax : (maxMagnitude : ℝ) = 400 := by norm_num [maxMagnitude]
  rw [hmax] at hle ⊢
  have hd : d * (1 - 1 / 2 ^ 50) ≤ 400 := by linarith
  norm_num at hd ⊢
  linarith

end Guard

section Digits

variable {q r : ℚ}

/-- Numerator and denominator both have few digits. -/
def Short (r : ℚ) : Prop :=
  digitCount r.num.natAbs ≤ maxMagnitude + 1 ∧ digitCount r.den ≤ maxMagnitude + 1

theorem short_iff : Short r ↔ max r.num.natAbs r.den < 10 ^ (maxMagnitude + 1) := by
  rw [Short, digitCount_le_iff (Nat.succ_pos _), digitCount_le_iff (Nat.succ_pos _), max_lt_iff]

/-- The larger of numerator and denominator of a power is a power of the larger one. -/
theorem max_num_den_zpow (hq : q ≠ 0) (n : ℤ) :
    max (q ^ n).num.natAbs (q ^ n).den = max q.num.natAbs q.den ^ n.natAbs := by
  have hmono (k : ℕ) : Monotone fun m : ℕ => m ^ k := fun _ _ h => Nat.pow_le_pow_left h k
  have hpow (k : ℕ) : max (q ^ k).num.natAbs (q ^ k).den = max q.num.natAbs q.den ^ k := by
    rw [Rat.num_pow, Rat.den_pow, Int.natAbs_pow]
    exact ((hmono k).map_max).symm
  obtain ⟨k, rfl | rfl⟩ := n.eq_nat_or_neg
  · rw [zpow_natCast, Int.natAbs_natCast, hpow]
  · have hne : q ^ k ≠ 0 := pow_ne_zero k hq
    have hnum : ((q ^ k)⁻¹).num.natAbs = (q ^ k).den := by
      rw [Rat.num_inv, Int.natAbs_mul, Int.natAbs_sign_of_ne_zero (Rat.num_ne_zero.mpr hne),
        Int.natAbs_natCast, one_mul]
    rw [zpow_neg, zpow_natCast, Rat.den_inv_of_ne_zero hne, hnum, max_comm, Int.natAbs_neg,
      Int.natAbs_natCast, hpow]

/-- A bound on the logarithm of a quotient bounds how far its parts are apart. -/
theorem nine_mul_lt {x y : ℕ} (hx : 0 < x) (hy : 0 < y)
    (h : Real.logb 10 ((x : ℝ) / y) ≤ maxMagnitude + 1 / 2 ^ 40) :
    9 * x < 10 ^ (maxMagnitude + 1) * y := by
  have hx' : (0 : ℝ) < x := by exact_mod_cast hx
  have hy' : (0 : ℝ) < y := by exact_mod_cast hy
  -- the hair is less than what ten is more than nine
  have hhair : 1 / 2 ^ 40 < Real.logb 10 (10 / 9) := by
    have hlog := Real.one_sub_inv_le_log_of_pos (show (0 : ℝ) < 10 / 9 by norm_num)
    have hten := Real.log_le_sub_one_of_pos (show (0 : ℝ) < 10 by norm_num)
    rw [Real.logb, lt_div_iff₀ (one_pos.trans_le one_le_log_ten)]
    norm_num at hlog hten ⊢
    linarith
  have hbound : Real.logb 10 (10 ^ maxMagnitude * (10 / 9)) =
      maxMagnitude + Real.logb 10 (10 / 9) := by
    rw [Real.logb_mul (by positivity) (by norm_num), Real.logb_pow,
      Real.logb_self_eq_one (by norm_num), mul_one]
  have hlt : Real.logb 10 ((x : ℝ) / y) < Real.logb 10 (10 ^ maxMagnitude * (10 / 9)) := by
    rw [hbound]
    linarith
  rw [Real.logb_lt_logb_iff (by norm_num) (by positivity) (by positivity), div_lt_iff₀ hy'] at hlt
  have hnine : (9 * x : ℝ) < 10 ^ (maxMagnitude + 1) * y := by
    rw [pow_succ]
    linarith
  exact_mod_cast hnine

/-- What passes the guard has a numerator and a denominator that are not far apart. -/
theorem nine_mul_num_den_lt (hr : r ≠ 0) (h : |Real.logb 10 r| ≤ maxMagnitude + 1 / 2 ^ 40) :
    9 * r.num.natAbs < 10 ^ (maxMagnitude + 1) * r.den ∧
      9 * r.den < 10 ^ (maxMagnitude + 1) * r.num.natAbs := by
  have hnum : 0 < r.num.natAbs := Int.natAbs_pos.mpr (Rat.num_ne_zero.mpr hr)
  have hquot : |(r : ℝ)| = (r.num.natAbs : ℝ) / r.den := by
    rw [Rat.cast_def, abs_div, Nat.cast_natAbs, Int.cast_abs, Nat.abs_cast]
  rw [← Real.logb_abs, hquot] at h
  refine ⟨nine_mul_lt hnum r.den_pos (abs_le.mp h).2, nine_mul_lt r.den_pos hnum ?_⟩
  rw [← inv_div, Real.logb_inv]
  linarith [(abs_le.mp h).1]

/-- Of two numbers that are not far apart neither is long if one is a single digit. -/
theorem lt_ten_pow_of_min_lt {x y n : ℕ} (h : 9 * x < 10 ^ (n + 1) * y) (hmin : min x y < 10) :
    x < 10 ^ (n + 1) := by
  rcases min_lt_iff.mp hmin with hlt | hlt
  · exact hlt.trans_le (Nat.le_self_pow (Nat.succ_ne_zero n) 10)
  · have hle : 10 ^ (n + 1) * y ≤ 10 ^ (n + 1) * 9 := Nat.mul_le_mul_left _ (by omega)
    omega

end Digits

namespace Formula

variable {a b : Formula} {q e : ℚ} {v : Value}

/-- A power that is computed is the power of base and exponent. Numerator and denominator
have no more digits than the limit and one exactly when the larger of those of the base, to
the magnitude of the exponent, has not. The guard sees to it where one of the two is a
single digit, as it is where the base or its reciprocal is whole; for all other powers it
only keeps one of the two from exceeding the other by more digits than the limit. -/
theorem short_power_iff (ha : a.compute = .ok (.rational q)) (hq : q ≠ 0)
    (hb : b.compute = .ok (.rational e)) (he : e.den = 1) (h : (pow a b).compute = .ok v) :
    v = .rational (q ^ e.num) ∧
    (Short (q ^ e.num) ↔
      max q.num.natAbs q.den ^ e.num.natAbs < 10 ^ (maxMagnitude + 1)) ∧
    (min (q ^ e.num).num.natAbs (q ^ e.num).den < 10 → Short (q ^ e.num)) ∧
    (q ^ e.num).num.natAbs < 10 ^ (maxMagnitude + 1) * (q ^ e.num).den ∧
    (q ^ e.num).den < 10 ^ (maxMagnitude + 1) * (q ^ e.num).num.natAbs := by
  have hguard : guardedPow (.rational q) (.rational e) = .ok v := by
    simpa [compute, ha, hb, bind, Except.bind] using h
  obtain ⟨hv, hlog⟩ := of_guardedPow hq he hguard
  obtain ⟨hnum, hden⟩ := nine_mul_num_den_lt (zpow_ne_zero _ hq) hlog
  refine ⟨hv, ?_, fun hmin => ?_, by omega, by omega⟩
  · rw [short_iff, max_num_den_zpow hq]
  · rw [short_iff, max_lt_iff]
    exact ⟨lt_ten_pow_of_min_lt hnum hmin, lt_ten_pow_of_min_lt hden (by rwa [min_comm])⟩

/-- The thousandth power of one half is computed, and its parts are short. -/
theorem short_power_of_half :
    (value (.rational (1 / 2))).compute = .ok (.rational (1 / 2)) ∧ (1 / 2 : ℚ) ≠ 0 ∧
    (value (.rational (-1000))).compute = .ok (.rational (-1000)) ∧ (-1000 : ℚ).den = 1 ∧
    (pow (.value (.rational (1 / 2))) (.value (.rational (-1000)))).compute =
      .ok (.rational ((1 / 2) ^ (-1000 : ℚ).num)) ∧
    Short ((1 / 2) ^ (-1000 : ℚ).num) := by
  have hhalf : (1 / 2 : ℚ) ≠ 0 := by norm_num
  have hvalue : (1 / 2 : ℚ) ^ (-1000 : ℚ).num = 2 ^ 1000 := by
    rw [one_div, inv_zpow']
    exact zpow_natCast 2 1000
  have hpass : guardedPow (.rational (1 / 2)) (.rational (-1000)) =
      .ok (.rational ((1 / 2) ^ (-1000 : ℚ).num)) := by
    apply guardedPow_of_range hhalf rfl
    · rw [hvalue, abs_of_pos (by positivity)]
      exact ((div_le_one (by positivity)).mpr (one_le_pow₀ (by norm_num))).trans
        (one_le_pow₀ (by norm_num))
    · rw [hvalue, abs_of_pos (by positivity)]
      calc (2 : ℚ) ^ 1000 ≤ 2 ^ (3 * 399) := pow_le_pow_right₀ (by norm_num) (by decide)
        _ = (2 ^ 3) ^ 399 := pow_mul 2 3 399
        _ ≤ 10 ^ (maxMagnitude - 1) := pow_le_pow_left₀ (by norm_num) (by norm_num) 399
  have hpow : (pow (.value (.rational (1 / 2))) (.value (.rational (-1000)))).compute =
      .ok (.rational ((1 / 2) ^ (-1000 : ℚ).num)) := by
    simpa [compute, bind, Except.bind] using hpass
  have h := short_power_iff rfl hhalf rfl rfl hpow
  have hden : ((2 : ℚ) ^ 1000).den = 1 := by simp only [Rat.den_pow, Rat.den_ofNat, one_pow]
  refine ⟨rfl, hhalf, rfl, rfl, hpow, h.2.2.1 ((min_le_right _ _).trans_lt ?_)⟩
  rw [hvalue, hden]
  decide

/-- The guard lets a power pass that has 801 digits on both sides of its fraction bar. -/
theorem longPower_passes :
    (readPhrase "1.0001^200".toList).bind ofPhrase? =
      some (pow (.value (.rational (10001 / 10000))) (.value (.rational 200))) ∧
    (pow (.value (.rational (10001 / 10000))) (.value (.rational 200))).compute =
      .ok (.rational ((10001 / 10000) ^ (200 : ℚ).num)) ∧
    ¬ Short ((10001 / 10000) ^ (200 : ℚ).num) := by
  have hpow : ((10001 / 10000 : ℚ)) ^ (200 : ℚ).num = (10001 / 10000) ^ 200 :=
    zpow_natCast _ 200
  refine ⟨?_, ?_, ?_⟩
  · have hphrase : readPhrase "1.0001^200".toList =
        some (.binary .power (.literal ⟨['1'], some ['0', '0', '0', '1'], none⟩)
          (.literal ⟨['2', '0', '0'], none, none⟩)) := by
      have hstatements : readStatements "1.0001^200".toList =
          some [[.literal ⟨['1'], some ['0', '0', '0', '1'], none⟩, .power,
            .literal ⟨['2', '0', '0'], none, none⟩]] := by decide +kernel
      rw [readPhrase, hstatements]
      rfl
    rw [hphrase]
    have hbase : digitsValue ['1', '0', '0', '0', '1'] = 10001 := by decide
    have hexponent : digitsValue ['2', '0', '0'] = 200 := by decide
    norm_num [ofPhrase?, Literal.value?, Text.digitLimit, hbase, hexponent]
  · have hpass : guardedPow (.rational (10001 / 10000)) (.rational 200) =
        .ok (.rational ((10001 / 10000) ^ (200 : ℚ).num)) := by
      have hone : 1 ≤ (10001 / 10000 : ℚ) ^ 200 := one_le_pow₀ (by norm_num)
      apply guardedPow_of_range (by norm_num) rfl
      · rw [hpow, abs_of_pos (by positivity)]
        exact ((div_le_one (by positivity)).mpr (one_le_pow₀ (by norm_num))).trans hone
      · rw [hpow, abs_of_pos (by positivity)]
        calc (10001 / 10000 : ℚ) ^ 200 ≤ 10 ^ 200 := by gcongr; norm_num
          _ ≤ 10 ^ (maxMagnitude - 1) := pow_le_pow_right₀ (by norm_num) (by decide)
    simpa [compute, bind, Except.bind] using hpass
  · rw [short_iff, max_num_den_zpow (by norm_num), not_lt]
    calc 10 ^ (maxMagnitude + 1) ≤ 10 ^ (4 * 200) := Nat.pow_le_pow_right (by decide) (by decide)
      _ = (10 ^ 4) ^ 200 := pow_mul 10 4 200
      _ ≤ max (10001 / 10000 : ℚ).num.natAbs (10001 / 10000 : ℚ).den ^ 200 := by
        gcongr
        exact le_max_of_le_right (by decide +kernel)

end Formula

end Bellman.Numeral
