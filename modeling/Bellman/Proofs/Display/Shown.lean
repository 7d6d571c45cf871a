import Bellman.Proofs.Decimal.Numeral
import Bellman.Proofs.Rounding.Nearest

/-!
# What a shown number writes

A shown number is a numeral for a number close to it: the nearest whole number if that is very
close, and otherwise the nearest number of units of the last place. Without places the units are
ones, and the zeros at the end that are dropped are no longer those behind a point. A whole
number of tens is then written without its zeros.
-/

namespace Bellman

open Rounding Decimal
open Numeral (placeValue)

/-- A double is its magnitude under its sign. -/
theorem Binary64.signedValue_abs_toRat (x : Binary64) :
    signedValue x.isNegative |x.toRat| = x.toRat := by
  cases x with
  | nan => exact abs_zero
  | infinity s => cases s <;> simp [signedValue, toRat, isNegative]
  | finite s m e h =>
      have hpos : (0 : ℚ) ≤ m * 2 ^ e := by positivity
      cases s with
      | false => exact abs_of_nonneg hpos
      | true => exact congrArg Neg.neg ((abs_neg _).trans (abs_of_nonneg hpos))

namespace Display

variable {x : Binary64} {places : ℕ}

/-- How many units of the last place a magnitude has, to the nearest. -/
def units (places : ℕ) (q : ℚ) : ℕ :=
  (halfEven (|q| * 10 ^ places)).toNat

theorem whole_eq (n : ℤ) : whole n = signed (n < 0) (Nat.toDigits 10 n.natAbs) := by
  by_cases hn : n < 0 <;> simp [whole, signed, hn]

theorem number_eq_whole (hfinite : x.isFinite = true)
    (hnear : |x.toRat - halfEven x.toRat| < wholeTolerance.toRat) (places : ℤ) :
    number x places = .ok (String.ofList (whole (halfEven x.toRat))) := by
  cases x with
  | nan => cases hfinite
  | infinity s => cases hfinite
  | finite s m e h =>
      rw [← ratAbs_eq] at hnear
      exact if_pos hnear

theorem number_eq_trimmed (hfinite : x.isFinite = true)
    (hfar : wholeTolerance.toRat ≤ |x.toRat - halfEven x.toRat|) (places : ℕ) :
    number x places = .ok (String.ofList
      (signed x.isNegative (trimmed (pointed places (units places x.toRat))))) := by
  cases x with
  | nan => cases hfinite
  | infinity s => cases hfinite
  | finite s m e h =>
      rw [← ratAbs_eq, ← not_lt] at hfar
      rw [← trimmed_signed, units, ← ratAbs_eq]
      exact (if_neg hfar).trans (if_neg (Int.not_lt.mpr (Int.natCast_nonneg places)))

/-- Only finite numbers are shown. -/
theorem isFinite_of_number {places : ℤ} {text : String} (h : number x places = .ok text) :
    x.isFinite = true := by
  cases x with
  | nan => cases h
  | infinity s => cases h
  | finite s m e h => rfl

theorem wholeTolerance_le : wholeTolerance.toRat ≤ 10 ^ (-12 : ℤ) := by
  decide +kernel

theorem cast_units (places : ℕ) (q : ℚ) : (units places q : ℤ) = halfEven (|q| * 10 ^ places) :=
  Int.toNat_of_nonneg (halfEven_nonneg (by positivity))

/-- A number of units is off by half a unit at most. -/
theorem abs_units_sub_le (places : ℕ) (q : ℚ) :
    abs ((units places q : ℚ) / 10 ^ places - |q|) ≤ 1 / 2 * 10 ^ (-places : ℤ) := by
  have hpos : (0 : ℚ) < 10 ^ places := by positivity
  have hnear := (isHalfEven_halfEven (|q| * 10 ^ places)).near
  have hcast : ((halfEven (|q| * 10 ^ places) : ℤ) : ℚ) = units places q := by
    rw [← cast_units, Int.cast_natCast]
  have hscale : (units places q : ℚ) / 10 ^ places - |q| =
      (units places q - |q| * 10 ^ places) / 10 ^ places := by
    rw [sub_div, mul_div_cancel_right₀ _ hpos.ne']
  rw [hcast, abs_sub_comm] at hnear
  rw [hscale, abs_div, abs_of_pos hpos, zpow_neg, zpow_natCast, ← div_eq_mul_inv]
  exact div_le_div_of_nonneg_right hnear hpos.le

/-- Units without places are whole numbers. -/
theorem units_zero (q : ℚ) : units 0 q = (halfEven q).natAbs := by
  have hunits := cast_units 0 q
  rw [pow_zero, mul_one] at hunits
  rcases le_total 0 q with hq | hq
  · rw [abs_of_nonneg hq] at hunits
    omega
  · rw [abs_of_nonpos hq, halfEven_neg] at hunits
    omega

theorem abs_signedValue_sub (x : Binary64) (q : ℚ) :
    |signedValue x.isNegative q - x.toRat| = abs (q - |x.toRat|) := by
  conv_lhs => rw [← x.signedValue_abs_toRat]
  cases x.isNegative with
  | false => rfl
  | true =>
      rw [signedValue, signedValue, if_pos rfl, if_pos rfl, ← neg_sub', abs_neg]

/-- A whole number is its magnitude under its sign. -/
theorem signedValue_natAbs (n : ℤ) : signedValue (n < 0) n.natAbs = n := by
  by_cases hn : n < 0
  · rw [signedValue, if_pos (decide_eq_true hn), Nat.cast_natAbs, abs_of_neg hn, Int.cast_neg,
      neg_neg]
  · rw [signedValue, if_neg (by simpa using hn), Nat.cast_natAbs, abs_of_nonneg (not_lt.mp hn)]

theorem denotes_whole (n : ℤ) : Denotes (whole n) n := by
  rw [whole_eq, ← signedValue_natAbs]
  exact (unsigned_toDigits n.natAbs).signed _

/-- A text is a numeral for a number as close as the places tell. -/
def Accurate (x : Binary64) (places : ℕ) (cs : List Char) : Prop :=
  ∃ q, Denotes cs q ∧ |q - x.toRat| ≤ max (10 ^ (-12 : ℤ)) (1 / 2 * 10 ^ (-places : ℤ))

theorem accurate_whole (hnear : |x.toRat - halfEven x.toRat| < wholeTolerance.toRat)
    (places : ℕ) : Accurate x places (whole (halfEven x.toRat)) := by
  rw [abs_sub_comm] at hnear
  exact ⟨_, denotes_whole _, (hnear.le.trans wholeTolerance_le).trans (le_max_left _ _)⟩

theorem accurate_units {cs : List Char} (h : Unsigned cs (units places x.toRat / 10 ^ places)) :
    Accurate x places (signed x.isNegative cs) := by
  refine ⟨_, h.signed _, ?_⟩
  rw [abs_signedValue_sub]
  exact (abs_units_sub_le places x.toRat).trans (le_max_right _ _)

/-- With places, every finite number is shown accurately. -/
theorem exists_accurate (hfinite : x.isFinite = true) (hplaces : 0 < places) :
    ∃ text, number x places = .ok text ∧ Accurate x places text.toList := by
  rcases lt_or_ge |x.toRat - halfEven x.toRat| wholeTolerance.toRat with hnear | hfar
  · refine ⟨_, number_eq_whole hfinite hnear places, ?_⟩
    rw [String.toList_ofList]
    exact accurate_whole hnear places
  · refine ⟨_, number_eq_trimmed hfinite hfar places, ?_⟩
    rw [String.toList_ofList]
    exact accurate_units (unsigned_trimmed_pointed hplaces _)

theorem not_denotes_signed_nil (negative : Bool) (q : ℚ) : ¬ Denotes (signed negative []) q := by
  have hhead {cs : List Char} {q : ℚ} (hcs : ∀ d ∈ cs.head?, d.isDigit = false) :
      ¬ Unsigned cs q := by
    intro h
    obtain ⟨d, hd, hdigit⟩ := h.head?_isDigit
    rw [hcs d hd] at hdigit
    cases hdigit
  intro h
  cases negative with
  | false =>
      cases h with
      | positive h => exact hhead (by simp [signed]) h
  | true =>
      cases h with
      | positive h => exact hhead (by simp [signed]) h
      | negative h => exact hhead (by simp) h

/-- A whole number of tens without its zeros is nothing, or at most a tenth of it. -/
theorem not_accurate_tens (htens : units 0 x.toRat % 10 = 0) :
    ¬ Accurate x 0 (signed x.isNegative (dropTrailingZeros
      (Nat.toDigits 10 (units 0 x.toRat)))) := by
  rintro ⟨q, hq, hclose⟩
  set n := units 0 x.toRat with hn
  have hlost := placeValue_dropTrailingZeros_le htens
  rcases eq_or_ne (dropTrailingZeros (Nat.toDigits 10 n)) [] with hnil | hne
  · rw [hnil] at hq
    exact not_denotes_signed_nil _ _ hq
  · have hwritten := (Unsigned.whole hne
      (isDigit_dropTrailingZeros (isDigit_toDigits n))).signed x.isNegative
    set v := placeValue (dropTrailingZeros (Nat.toDigits 10 n))
    have hten : 10 ≤ n := by
      by_contra! hsmall
      have hzero : n = 0 := by omega
      rw [hzero] at hne
      exact hne rfl
    have hunits := abs_units_sub_le 0 x.toRat
    rw [hq.unique hwritten, abs_signedValue_sub] at hclose
    rw [← hn] at hunits
    have htolerance : max (10 ^ (-12 : ℤ)) (1 / 2 * 10 ^ (-(0 : ℕ) : ℤ)) = (1 / 2 : ℚ) := by
      norm_num
    rw [htolerance] at hclose
    have hlost' : (10 : ℚ) * v ≤ n := by exact_mod_cast hlost
    have hten' : (10 : ℚ) ≤ n := by exact_mod_cast hten
    have hlow := (abs_le.mp hclose).1
    have hhigh := (abs_le.mp hunits).2
    norm_num at hhigh
    linarith

/-- A finite number is shown accurately, unless no places are asked for, it is no whole number,
and the nearest one is a number of tens. -/
theorem number_accurate_iff (x : Binary64) (places : ℕ) :
    (∃ text q, number x places = .ok text ∧ Denotes text.toList q ∧
      |q - x.toRat| ≤ max (10 ^ (-12 : ℤ)) (1 / 2 * 10 ^ (-places : ℤ))) ↔
    x.isFinite = true ∧ ¬ (places = 0 ∧ wholeTolerance.toRat ≤ |x.toRat - halfEven x.toRat| ∧
      halfEven x.toRat % 10 = 0) := by
  constructor
  · rintro ⟨text, q, htext, hq⟩
    have hfinite := isFinite_of_number htext
    refine ⟨hfinite, ?_⟩
    rintro ⟨rfl, hfar, htens⟩
    rw [number_eq_trimmed hfinite hfar 0] at htext
    obtain rfl := Except.ok.inj htext
    rw [String.toList_ofList, trimmed_pointed_zero] at hq
    have htens' : units 0 x.toRat % 10 = 0 := by
      rw [units_zero]
      omega
    exact not_accurate_tens htens' ⟨q, hq⟩
  · rintro ⟨hfinite, hkept⟩
    rcases Nat.eq_zero_or_pos places with rfl | hplaces
    · rcases lt_or_ge |x.toRat - halfEven x.toRat| wholeTolerance.toRat with hnear | hfar
      · obtain ⟨q, hq⟩ := accurate_whole hnear 0
        refine ⟨_, q, number_eq_whole hfinite hnear _, ?_⟩
        rwa [String.toList_ofList]
      · have htens : units 0 x.toRat % 10 ≠ 0 := by
          rw [units_zero]
          intro h
          exact hkept ⟨rfl, hfar, by omega⟩
        have hdigits : Unsigned (Nat.toDigits 10 (units 0 x.toRat))
            (units 0 x.toRat / 10 ^ 0) := by
          rw [pow_zero, div_one]
          exact unsigned_toDigits _
        obtain ⟨q, hq⟩ := accurate_units hdigits
        refine ⟨_, q, number_eq_trimmed hfinite hfar 0, ?_⟩
        rwa [String.toList_ofList, trimmed_pointed_zero, dropTrailingZeros_toDigits htens]
    · obtain ⟨text, htext, q, hq⟩ := exists_accurate hfinite hplaces
      exact ⟨text, q, htext, hq⟩

/-- Nine and a half without places is shown as one. -/
theorem not_accurate_nine_and_half :
    (Binary64.ofRat (19 / 2)).isFinite = true ∧
      ¬ ∃ text q, number (Binary64.ofRat (19 / 2)) 0 = .ok text ∧ Denotes text.toList q ∧
        |q - (Binary64.ofRat (19 / 2)).toRat| ≤
          max (10 ^ (-12 : ℤ)) (1 / 2 * 10 ^ (-(0 : ℕ) : ℤ)) := by
  refine ⟨by decide +kernel, ?_⟩
  rintro ⟨text, q, htext, hq, hclose⟩
  have hone : number (Binary64.ofRat (19 / 2)) 0 = .ok "1" := by decide +kernel
  obtain rfl := Except.ok.inj (hone.symm.trans htext)
  have hvalue : (Binary64.ofRat (19 / 2)).toRat = 19 / 2 := by decide +kernel
  have hwritten : "1".toList = whole 1 := by decide
  rw [hwritten] at hq
  rw [hq.unique (denotes_whole 1), hvalue] at hclose
  norm_num at hclose

end Display

end Bellman
